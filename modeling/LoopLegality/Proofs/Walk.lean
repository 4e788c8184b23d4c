import LoopLegality.Proofs.Touches

namespace LoopLegality

theorem CountedLoop.id_of_ofHeader? {h : ForHeader} {l : CountedLoop}
    (hl : ofHeader? h = some l) : l.id = h.id := by
  simp only [ofHeader?, Option.bind_eq_bind, Option.bind_eq_some_iff] at hl
  obtain ⟨_, -, _, -, _, -, _, -, _, -, n, -, hl⟩ := hl
  split at hl
  · cases hl
    rfl
  · cases hl

namespace Stmt

variable {c : Touch.Context} {ids : List LoopId} {u : Use}

theorem uses_compound {ss : List Stmt} {s : Site} {p : Use.Site} :
    Uses c (.compound ss s) ids p u ↔ ∃ st ∈ ss, st.Uses c ids p u := by
  constructor
  · intro hu
    cases hu with
    | item _ hst hu => exact ⟨_, hst, hu⟩
  · rintro ⟨st, hst, hu⟩
    exact .item s hst hu

theorem hasLoop_compound {ss : List Stmt} {s : Site} {f : ForHeader}
    (h : ∃ st ∈ ss, st.HasLoop f) : HasLoop (.compound ss s) f := by
  obtain ⟨st, hst, hf⟩ := h
  exact .item s hst hf

theorem hasLoop_of_statements {b : Stmt} {f : ForHeader}
    (h : ∃ st ∈ b.statements, st.HasLoop f) : b.HasLoop f := by
  cases b with
  | compound ss s => exact hasLoop_compound h
  | _ =>
    obtain ⟨st, hst, hf⟩ := h
    obtain rfl := List.mem_singleton.mp hst
    exact hf

theorem uses_branch {e : Expr} {y : Stmt} {n : Option Stmt} {s : Site} :
    Uses c (.branch e y n s) ids .statement u ↔
      ((ids = [] ∧ e.Uses c u) ∨ y.Uses c ids .statement u) ∨
        ∃ st, n = some st ∧ st.Uses c ids .statement u := by
  constructor
  · intro hu
    cases hu with
    | test _ _ _ hu => exact Or.inl (Or.inl ⟨rfl, hu⟩)
    | yes _ _ _ hu => exact Or.inl (Or.inr hu)
    | no _ _ _ hu => exact Or.inr ⟨_, rfl, hu⟩
  · rintro ((⟨rfl, hu⟩ | hu) | ⟨st, rfl, hu⟩)
    · exact .test y n s hu
    · exact .yes e n s hu
    · exact .no e y s hu

theorem uses_forLoop {h : ForHeader} {b : Stmt} {s : Site} :
    Uses c (.forLoop h b s) ids .statement u ↔
      ∃ rest, ids = h.id :: rest ∧ b.Uses c rest .statement u := by
  constructor
  · intro hu
    cases hu with
    | body _ _ hu => exact ⟨_, rfl, hu⟩
  · rintro ⟨rest, rfl, hu⟩
    exact .body h s hu

end Stmt

namespace Trail

variable {c : Touch.Context} {nest : List CountedLoop} {t t' t'' : Trail}
  {gs gs' : List TouchGroup} {P Q : List LoopId → Use → Prop} {L M : ForHeader → Prop}

/-- What a walk inside a nest adds to a trail: groups for exactly the uses `P`, each with the loops
around it, and counted loops for headers `L`. -/
structure Walked (nest : List CountedLoop) (P : List LoopId → Use → Prop) (L : ForHeader → Prop)
    (t t' : Trail) (gs : List TouchGroup) : Prop where
  groups : t'.groups = t.groups ++ gs
  sound : ∀ g ∈ gs, ∀ u ∈ g.touches.map Touch.use, ∃ ids,
    g.loops = nest.map (·.id) ++ ids ∧ P ids u
  complete : ∀ ids u, P ids u → ∃ g ∈ gs,
    g.loops = nest.map (·.id) ++ ids ∧ u ∈ g.touches.map Touch.use
  known : ∀ id, t.loops.get? id ≠ none → t'.loops.get? id ≠ none
  loops : ∀ id l, t'.loops.get? id = some l →
    t.loops.get? id = some l ∨ ∃ h, L h ∧ h.id = id ∧ CountedLoop.ofHeader? h = some l

def Steady (t t' : Trail) (gs : List TouchGroup) : Prop :=
  t'.topLevel = t.topLevel ∧ ∀ g ∈ gs, g.topLevel = t.topLevel

theorem Walked.refl (nest : List CountedLoop) (t : Trail) :
    Walked nest (fun _ _ => False) (fun _ => False) t t [] where
  groups := (List.append_nil _).symm
  sound := nofun
  complete := nofun
  known _ h := h
  loops _ _ h := Or.inl h

theorem Steady.refl (t : Trail) : Steady t t [] := ⟨rfl, nofun⟩

theorem Walked.add (nest : List CountedLoop) (t : Trail) (touches : List Touch) :
    Walked nest (fun ids u => ids = [] ∧ u ∈ touches.map Touch.use) (fun _ => False) t
      (t.add nest touches) [⟨nest.map (·.id), t.topLevel, touches⟩] where
  groups := rfl
  sound := by
    simp only [List.forall_mem_singleton]
    exact fun u hu => ⟨[], (List.append_nil _).symm, rfl, hu⟩
  complete := by
    rintro _ u ⟨rfl, hu⟩
    exact ⟨_, List.mem_singleton_self _, (List.append_nil _).symm, hu⟩
  known _ h := h
  loops _ _ h := Or.inl h

theorem Steady.add (nest : List CountedLoop) (t : Trail) (touches : List Touch) :
    Steady t (t.add nest touches) [⟨nest.map (·.id), t.topLevel, touches⟩] :=
  ⟨rfl, by simp⟩

theorem Walked.trans (h : Walked nest P L t t' gs) (h' : Walked nest Q M t' t'' gs') :
    Walked nest (fun ids u => P ids u ∨ Q ids u) (fun f => L f ∨ M f) t t'' (gs ++ gs') where
  groups := by rw [h'.groups, h.groups, List.append_assoc]
  sound g hg u hu := by
    obtain hg | hg := List.mem_append.mp hg
    · obtain ⟨ids, hids, hp⟩ := h.sound g hg u hu
      exact ⟨ids, hids, Or.inl hp⟩
    · obtain ⟨ids, hids, hq⟩ := h'.sound g hg u hu
      exact ⟨ids, hids, Or.inr hq⟩
  complete := by
    rintro ids u (hp | hq)
    · obtain ⟨g, hg, hr⟩ := h.complete ids u hp
      exact ⟨g, List.mem_append_left _ hg, hr⟩
    · obtain ⟨g, hg, hr⟩ := h'.complete ids u hq
      exact ⟨g, List.mem_append_right _ hg, hr⟩
  known id hid := h'.known id (h.known id hid)
  loops id l hl := by
    obtain hl | ⟨f, hf, hr⟩ := h'.loops id l hl
    · exact (h.loops id l hl).imp_right fun ⟨f, hf, hr⟩ => ⟨f, Or.inl hf, hr⟩
    · exact Or.inr ⟨f, Or.inr hf, hr⟩

theorem Steady.trans (h : Steady t t' gs) (h' : Steady t' t'' gs') :
    Steady t t'' (gs ++ gs') := by
  refine ⟨h'.1.trans h.1, fun g hg => ?_⟩
  obtain hg | hg := List.mem_append.mp hg
  · exact h.2 g hg
  · exact (h'.2 g hg).trans h.1

theorem Walked.congr (h : Walked nest P L t t' gs) (hp : ∀ ids u, P ids u ↔ Q ids u)
    (hl : ∀ f, L f → M f) : Walked nest Q M t t' gs where
  groups := h.groups
  sound g hg u hu := by
    obtain ⟨ids, hids, hr⟩ := h.sound g hg u hu
    exact ⟨ids, hids, (hp ids u).mp hr⟩
  complete ids u hu := h.complete ids u ((hp ids u).mpr hu)
  known := h.known
  loops id l hget := (h.loops id l hget).imp_right fun ⟨f, hf, hr⟩ => ⟨f, hl f hf, hr⟩

theorem Walked.enter {f : ForHeader} {l : CountedLoop} (hl : CountedLoop.ofHeader? f = some l)
    (hid : l.id = f.id)
    (h : Walked (nest ++ [l]) P L { t with loops := t.loops.insert f.id l } t' gs) :
    Walked nest (fun ids u => ∃ rest, ids = f.id :: rest ∧ P rest u) (fun f' => f' = f ∨ L f')
      t t' gs where
  groups := h.groups
  sound g hg u hu := by
    obtain ⟨rest, hr, hp⟩ := h.sound g hg u hu
    exact ⟨f.id :: rest, by simpa [hid] using hr, rest, rfl, hp⟩
  complete := by
    rintro _ u ⟨rest, rfl, hp⟩
    obtain ⟨g, hg, hr, hu⟩ := h.complete rest u hp
    exact ⟨g, hg, by simpa [hid] using hr, hu⟩
  known id hne := by
    apply h.known
    rw [IndexMap.get?_insert]
    split
    · simp
    · exact hne
  loops id l' hget := by
    obtain hget | ⟨f', hf', hr⟩ := h.loops id l' hget
    · rw [IndexMap.get?_insert] at hget
      split at hget
      · next he =>
        cases hget
        exact Or.inr ⟨f, Or.inl rfl, he, hl⟩
      · exact Or.inl hget
    · exact Or.inr ⟨f', Or.inr hf', hr⟩

theorem Walked.at {k : Nat} (h : Walked nest P L { t with topLevel := k } t' gs) :
    Walked nest P L t t' gs :=
  ⟨h.groups, h.sound, h.complete, h.known, h.loops⟩

theorem uses_contextIn {e : Expr} {u : Use} : e.Uses (contextIn c nest) u ↔ e.Uses c u :=
  ⟨Expr.Uses.congr rfl rfl, Expr.Uses.congr rfl rfl⟩

theorem declarator_uses_contextIn {d : Declarator} {u : Use} :
    d.Uses (contextIn c nest) u ↔ d.Uses c u := by
  simp only [Declarator.Uses, uses_contextIn]

mutual

/-- A walk through a statement records exactly what running it may use outside headers. -/
theorem walk_spec (nest : List CountedLoop) : ∀ (st : Stmt) {t t' : Trail},
    walk c nest st t = .ok t' →
    ∃ gs, Walked nest (fun ids u => st.Uses c ids .statement u) st.HasLoop t t' gs ∧
      (nest ≠ [] → Steady t t' gs)
  | .null s, t, t', h => by
    cases h
    refine ⟨[], (Walked.refl nest t).congr (fun ids u => ?_) nofun, fun _ => Steady.refl t⟩
    exact ⟨nofun, nofun⟩
  | .decl ds s, t, t', h => by
    obtain ⟨ts, hts, h⟩ := bind_eq_ok.mp h
    cases h
    refine ⟨_, (Walked.add nest t ts).congr (fun ids u => ?_) nofun, fun _ => Steady.add nest t ts⟩
    rw [Touch.mem_ofDeclarators hts]
    simp only [declarator_uses_contextIn]
    constructor
    · rintro ⟨rfl, d, hd, hu⟩
      exact .decl s hd hu
    · intro hu
      cases hu with
      | decl _ hd hu => exact ⟨rfl, _, hd, hu⟩
  | .expr e s, t, t', h => by
    obtain ⟨ts, hts, h⟩ := bind_eq_ok.mp h
    cases h
    refine ⟨_, (Walked.add nest t ts).congr (fun ids u => ?_) nofun, fun _ => Steady.add nest t ts⟩
    rw [Touch.mem_ofStatementExpr hts, uses_contextIn]
    constructor
    · rintro ⟨rfl, hu⟩
      exact .expr s hu
    · intro hu
      cases hu with
      | expr _ hu => exact ⟨rfl, hu⟩
  | .compound ss s, t, t', h => by
    obtain ⟨gs, hw, hs⟩ := walkAll_spec nest ss h
    exact ⟨gs, hw.congr (fun _ _ => Stmt.uses_compound.symm) fun _ => Stmt.hasLoop_compound, hs⟩
  | .branch e y none s, t, t', h => by
    obtain ⟨ts, hts, h⟩ := bind_eq_ok.mp h
    obtain ⟨gs, hw, hs⟩ := walk_spec nest y h
    refine ⟨_, ((Walked.add nest t ts).trans hw).congr (fun ids u => ?_) ?_,
      fun hne => (Steady.add nest t ts).trans (hs hne)⟩
    · rw [Stmt.uses_branch, Touch.mem_ofExpr e hts, uses_contextIn]
      simp
    · rintro f (hf | hf)
      · exact hf.elim
      · exact .yes e none s hf
  | .branch e y (some n) s, t, t', h => by
    obtain ⟨ts, hts, h⟩ := bind_eq_ok.mp h
    obtain ⟨t₁, h₁, h⟩ := bind_eq_ok.mp h
    obtain ⟨gs₁, hw₁, hs₁⟩ := walk_spec nest y h₁
    obtain ⟨gs₂, hw₂, hs₂⟩ := walk_spec nest n h
    refine ⟨_, (((Walked.add nest t ts).trans hw₁).trans hw₂).congr (fun ids u => ?_) ?_,
      fun hne => ((Steady.add nest t ts).trans (hs₁ hne)).trans (hs₂ hne)⟩
    · rw [Stmt.uses_branch, Touch.mem_ofExpr e hts, uses_contextIn]
      simp
    · rintro f ((hf | hf) | hf)
      · exact hf.elim
      · exact .yes e (some n) s hf
      · exact .no e y s hf
  | .forLoop f b s, t, t', h => by
    rw [walk] at h
    split at h
    · cases h
    · next l hl =>
      have hid := CountedLoop.id_of_ofHeader? hl
      -- seen from outside, the walk through the body is one through the loop
      have henter {t₀ : Trail} {gs : List TouchGroup}
          (hw : Walked (nest ++ [l]) (fun ids u => b.Uses c ids .statement u) b.HasLoop
            { t with loops := t.loops.insert f.id l } t₀ gs) :
          Walked nest (fun ids u => Stmt.Uses c (.forLoop f b s) ids .statement u)
            (Stmt.HasLoop (.forLoop f b s)) t t₀ gs := by
        refine (hw.enter hl hid).congr (fun _ _ => Stmt.uses_forLoop.symm) ?_
        rintro f' (rfl | hf)
        · exact .self f' b s
        · exact .body f s hf
      dsimp only at h
      split at h
      · next hempty =>
        obtain rfl := List.isEmpty_iff.mp hempty
        cases b with
        | compound ss s' =>
          obtain ⟨gs, hw, -⟩ := walkNumbered_spec [l] 0 ss h
          refine ⟨gs, henter (hw.congr (fun _ _ => Stmt.uses_compound.symm)
            fun _ => Stmt.hasLoop_compound), fun hne => (hne rfl).elim⟩
        | _ =>
          obtain ⟨gs, hw, -⟩ := walk_spec [l] _ h
          exact ⟨gs, henter hw.at, fun hne => (hne rfl).elim⟩
      · obtain ⟨gs, hw, hs⟩ := walk_spec (nest ++ [l]) b h
        exact ⟨gs, henter hw, fun _ => hs (by simp)⟩

theorem walkAll_spec (nest : List CountedLoop) : ∀ (ss : List Stmt) {t t' : Trail},
    walkAll c nest ss t = .ok t' →
    ∃ gs, Walked nest (fun ids u => ∃ st ∈ ss, st.Uses c ids .statement u)
        (fun f => ∃ st ∈ ss, st.HasLoop f) t t' gs ∧ (nest ≠ [] → Steady t t' gs)
  | [], t, t', h => by
    cases h
    exact ⟨[], (Walked.refl nest t).congr (by simp) nofun, fun _ => Steady.refl t⟩
  | st :: ss, t, t', h => by
    obtain ⟨t₁, h₁, h⟩ := bind_eq_ok.mp h
    obtain ⟨gs₁, hw₁, hs₁⟩ := walk_spec nest st h₁
    obtain ⟨gs₂, hw₂, hs₂⟩ := walkAll_spec nest ss h
    exact ⟨gs₁ ++ gs₂, (hw₁.trans hw₂).congr (by simp) (by simp),
      fun hne => (hs₁ hne).trans (hs₂ hne)⟩

theorem walkNumbered_spec (nest : List CountedLoop) : ∀ (k : Nat) (ss : List Stmt) {t t' : Trail},
    walkNumbered c nest k ss t = .ok t' →
    ∃ gs, Walked nest (fun ids u => ∃ st ∈ ss, st.Uses c ids .statement u)
        (fun f => ∃ st ∈ ss, st.HasLoop f) t t' gs ∧
      (nest ≠ [] → ∀ g ∈ gs, ∃ j st, ss[j]? = some st ∧ g.topLevel = k + j ∧
        ∀ u ∈ g.touches.map Touch.use, ∃ ids,
          g.loops = nest.map (·.id) ++ ids ∧ st.Uses c ids .statement u)
  | k, [], t, t', h => by
    cases h
    exact ⟨[], (Walked.refl nest t).congr (by simp) nofun, fun _ => nofun⟩
  | k, st :: ss, t, t', h => by
    obtain ⟨t₁, h₁, h⟩ := bind_eq_ok.mp h
    obtain ⟨gs₁, hw₁, hs₁⟩ := walk_spec nest st h₁
    obtain ⟨gs₂, hw₂, hs₂⟩ := walkNumbered_spec nest (k + 1) ss h
    refine ⟨gs₁ ++ gs₂, (hw₁.at.trans hw₂).congr (by simp) (by simp), fun hne g hg => ?_⟩
    obtain hg | hg := List.mem_append.mp hg
    · exact ⟨0, st, rfl, (hs₁ hne).2 g hg, hw₁.sound g hg⟩
    · obtain ⟨j, st', hj, hk, hu⟩ := hs₂ hne g hg
      exact ⟨j + 1, st', hj, by omega, hu⟩

end

theorem walk_outermost {f : ForHeader} {b : Stmt} {s : Site}
    (h : walk c [] (.forLoop f b s) t = .ok t') :
    ∃ l, CountedLoop.ofHeader? f = some l ∧
      walkNumbered c [l] 0 b.statements { t with loops := t.loops.insert f.id l } = .ok t' := by
  rw [walk] at h
  split at h
  · cases h
  · next l hl =>
    refine ⟨l, hl, ?_⟩
    simp only [List.isEmpty_nil, if_true] at h
    split at h
    · exact h
    · next hb =>
      -- a body without braces is its own only statement
      have hstatements : b.statements = [b] := by
        cases b with
        | compound ss s' => exact (hb ss s' rfl).elim
        | _ => rfl
      rw [hstatements, walkNumbered]
      exact bind_eq_ok.mpr ⟨t', h, rfl⟩

theorem exists_group {tr : Trail} {a : Access} (h : a ∈ tr.accesses) :
    ∃ g ∈ tr.groups, a.toTouch ∈ g.touches ∧ a.loops = g.loops ∧ a.topLevel = g.topLevel := by
  obtain ⟨⟨f, k⟩, hf, rfl⟩ := List.mem_map.mp h
  obtain ⟨⟨g, n⟩, hg, hmap⟩ := List.mem_flatMap.mp (List.fst_mem_of_mem_zipIdx hf)
  obtain ⟨touch, ht, rfl⟩ := List.mem_map.mp hmap
  exact ⟨g, List.fst_mem_of_mem_zipIdx hg, ht, rfl, rfl⟩

theorem exists_access {tr : Trail} {g : TouchGroup} {touch : Touch} (hg : g ∈ tr.groups)
    (ht : touch ∈ g.touches) :
    ∃ a ∈ tr.accesses, a.toTouch = touch ∧ a.loops = g.loops ∧ a.topLevel = g.topLevel := by
  obtain ⟨n, hn⟩ := List.getElem?_of_mem hg
  have hplaced : (fun order => Access.mk touch g.loops (1 + n) g.topLevel order) ∈ tr.placed :=
    List.mem_flatMap.mpr ⟨(g, 1 + n), List.mk_add_mem_zipIdx_iff_getElem?.mpr hn,
      List.mem_map_of_mem ht⟩
  obtain ⟨k, hk⟩ := List.getElem?_of_mem hplaced
  exact ⟨_, List.mem_map_of_mem (List.mk_mem_zipIdx_iff_getElem?.mpr hk), rfl, rfl, rfl⟩

theorem getElem?_order {tr : Trail} {s : Access} (h : s ∈ tr.accesses) :
    tr.accesses[s.order]? = some s := by
  obtain ⟨⟨f, k⟩, hf, rfl⟩ := List.mem_map.mp h
  have hk : tr.placed[k]? = some f := List.mk_mem_zipIdx_iff_getElem?.mp hf
  obtain ⟨⟨g, n⟩, -, hmap⟩ := List.mem_flatMap.mp (List.mem_of_getElem? hk)
  obtain ⟨touch, -, rfl⟩ := List.mem_map.mp hmap
  simp [accesses, hk]

theorem eq_of_order_eq {tr : Trail} {s t : Access} (hs : s ∈ tr.accesses) (ht : t ∈ tr.accesses)
    (h : s.order = t.order) : s = t := by
  have hget := getElem?_order hs
  rw [h, getElem?_order ht] at hget
  exact (Option.some.inj hget).symm

theorem order_ne_of_precedes {tr : Trail} {s t : Access} (hs : s ∈ tr.accesses)
    (ht : t ∈ tr.accesses) (h : s.precedes t = true) : s.order ≠ t.order := by
  intro heq
  obtain rfl := eq_of_order_eq hs ht heq
  simp [Access.precedes, Access.isRead] at h

end Trail

namespace Collector

/-- A collection that succeeds holds what the walk through the region has met. -/
theorem collect_eq_ok {c : Collector} {stmts : List Stmt} {set : AccessSet}
    (h : c.collect stmts = .ok set) :
    ∃ tr, Trail.walkNumbered c.context [] 0 stmts .empty = .ok tr ∧
      set = ⟨tr.accesses, tr.loops⟩ := by
  rw [collect] at h
  dsimp only at h
  by_cases hc : c.cancelled = true
  · rw [if_pos hc] at h
    cases h
  · rw [if_neg hc] at h
    obtain ⟨tr, htr, hrest⟩ := bind_eq_ok.mp h
    have hset : set = ⟨tr.accesses, tr.loops⟩ := by
      split at hrest
      · split at hrest
        · cases hrest
        · exact (Except.ok.inj hrest).symm
      · exact (Except.ok.inj hrest).symm
    cases hw : Trail.walkNumbered c.context [] 0 stmts .empty with
    | error e => rw [hw] at htr; cases htr
    | ok tr' =>
      rw [hw] at htr
      cases htr
      exact ⟨tr, rfl, hset⟩

end Collector

end LoopLegality
