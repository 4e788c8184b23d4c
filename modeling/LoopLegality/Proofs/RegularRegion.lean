import LoopLegality.Proofs.Unification

namespace LoopLegality

namespace Stmt

mutual

@[simp] def parts : Stmt → List Stmt
  | st@(forLoop _ b _) => st :: b.parts
  | st@(compound ss _) => st :: partsOf ss
  | st@(branch _ y none _) => st :: y.parts
  | st@(branch _ y (some n) _) => st :: (y.parts ++ n.parts)
  | st@(whileLoop _ b _) => st :: b.parts
  | st@(doWhile b _ _) => st :: b.parts
  | st@(switch _ b _) => st :: b.parts
  | st@(label _ b _) => st :: b.parts
  | st => [st]

@[simp] def partsOf : List Stmt → List Stmt
  | [] => []
  | st :: ss => st.parts ++ partsOf ss

end

/-- Control flow other than that of `if` and `for`. -/
def isIrregular : Stmt → Bool
  | .break _ | .continue _ | goto .. | ret .. | label .. | whileLoop .. | doWhile .. | switch ..
  | caseLabel .. | defaultLabel _ => true
  | _ => false

/-- The statement is no control flow but that of `if` and of loops that count upward. -/
def IsRegular (st : Stmt) : Prop :=
  st.isIrregular = false ∧
    ∀ l, st.forLoop? = some l → ∃ cl, CountedLoop.ofHeader? l.header = some cl

theorem mem_partsOf {p : Stmt} {ss : List Stmt} : p ∈ partsOf ss ↔ ∃ st ∈ ss, p ∈ st.parts := by
  induction ss with
  | nil => simp
  | cons st ss ih => simp [ih]

section Walks

variable {c : Touch.Context}

mutual

/-- A statement that is collected has regular parts only. -/
theorem isRegular_of_walks : ∀ (st : Stmt) {nest : List CountedLoop}
    {t t' : Trail}, Trail.Walks c nest st t t' → ∀ p ∈ st.parts, p.IsRegular
  | .null _ | .decl .. | .expr .. => fun _ => List.forall_mem_singleton.mpr ⟨rfl, nofun⟩
  | .compound ss s => fun h => by
    refine List.forall_mem_cons.mpr ⟨⟨rfl, nofun⟩, isRegularOf_of_walks ss fun st hst => ?_⟩
    obtain ⟨t₁, t₂, h, -⟩ := h.compound hst
    exact ⟨_, t₁, t₂, h⟩
  | .forLoop f b s => fun h => by
    obtain h | ⟨_, _, _, ⟨⟩, -⟩ := h
    obtain ⟨cl, hcl, t₁, h⟩ := Trail.walk_forLoop_eq_ok h
    refine List.forall_mem_cons.mpr ⟨⟨rfl, ?_⟩, isRegular_of_walks b h⟩
    rintro _ ⟨⟩
    exact ⟨cl, hcl⟩
  | .branch e y none s => fun h => by
    obtain h | ⟨_, _, _, ⟨⟩, -⟩ := h
    obtain ⟨ts, -, h⟩ := bind_eq_ok.mp h
    exact List.forall_mem_cons.mpr ⟨⟨rfl, nofun⟩, isRegular_of_walks y (Or.inl h)⟩
  | .branch e y (some n) s => fun h => by
    obtain h | ⟨_, _, _, ⟨⟩, -⟩ := h
    obtain ⟨ts, -, h⟩ := bind_eq_ok.mp h
    obtain ⟨t₁, h₁, h⟩ := bind_eq_ok.mp h
    refine List.forall_mem_cons.mpr ⟨⟨rfl, nofun⟩, List.forall_mem_append.mpr ⟨?_, ?_⟩⟩
    · exact isRegular_of_walks y (Or.inl h₁)
    · exact isRegular_of_walks n (Or.inl h)
  | .ret .. | .whileLoop .. | .doWhile .. | .switch .. | .caseLabel .. | .defaultLabel _
  | .break _ | .continue _ | .goto .. | .label .. => fun h => by
    obtain h | ⟨_, _, _, ⟨⟩, -⟩ := h
    cases h

theorem isRegularOf_of_walks : ∀ ss : List Stmt,
    (∀ st ∈ ss, ∃ nest t t', Trail.Walks c nest st t t') → ∀ p ∈ partsOf ss, p.IsRegular
  | [] => nofun
  | st :: ss => fun h => by
    obtain ⟨⟨nest, t, t', hst⟩, hss⟩ := List.forall_mem_cons.mp h
    exact List.forall_mem_append.mpr ⟨isRegular_of_walks st hst, isRegularOf_of_walks ss hss⟩

end

end Walks

mutual

theorem parts_rename (r : Symbol → Symbol) : ∀ st : Stmt,
    (st.rename r).parts = st.parts.map (Stmt.rename r)
  | .compound ss s => by simp [rename, partsOf_rename r ss]
  | .forLoop f b s => by simp [rename, parts_rename r b]
  | .branch c y none s => by simp [rename, parts_rename r y]
  | .branch c y (some n) s => by simp [rename, parts_rename r y, parts_rename r n]
  | .whileLoop c b s => by simp [rename, parts_rename r b]
  | .doWhile b c s => by simp [rename, parts_rename r b]
  | .switch c b s => by simp [rename, parts_rename r b]
  | .label n b s => by simp [rename, parts_rename r b]
  | .decl .. | .expr .. | .null _ | .ret .. | .caseLabel .. | .defaultLabel _ | .break _
  | .continue _ | .goto .. => by simp [rename]

theorem partsOf_rename (r : Symbol → Symbol) : ∀ ss : List Stmt,
    partsOf (renameAll r ss) = (partsOf ss).map (Stmt.rename r)
  | [] => rfl
  | st :: ss => by simp [renameAll, parts_rename r st, partsOf_rename r ss]

end

theorem isIrregular_rename (r : Symbol → Symbol) (st : Stmt) :
    (st.rename r).isIrregular = st.isIrregular := by
  cases st with
  | branch c y n s => cases n <;> rfl
  | _ => rfl

theorem isIrregular_of_statements {b : Stmt}
    (h : ∀ st ∈ b.statements, ∀ p ∈ st.parts, p.isIrregular = false) :
    ∀ p ∈ b.parts, p.isIrregular = false := by
  cases b with
  | compound ss s =>
    refine List.forall_mem_cons.mpr ⟨rfl, fun p hp => ?_⟩
    obtain ⟨st, hst, hp⟩ := mem_partsOf.mp hp
    exact h st hst p hp
  | _ => exact h _ (List.mem_singleton_self _)

end Stmt

theorem Fusion.isIrregular_of_fused {f : Fusion}
    (h : ∀ p ∈ f.fused.stmt.parts, p.isIrregular = false) :
    ∀ p ∈ f.first.body.parts ++ f.second.body.parts, p.isIrregular = false := by
  -- the statements of both bodies are parts of the fused body, those of the second renamed
  have hpart {st : Stmt} (hst : st ∈ f.first.body.statements ++
      f.second.body.statements.map (Stmt.rename f.rename)) :
      ∀ p ∈ st.parts, p.isIrregular = false := by
    intro p hp
    apply h
    rw [ForLoop.stmt, fused, Stmt.parts, Stmt.parts]
    exact List.mem_cons_of_mem _ (List.mem_cons_of_mem _ (Stmt.mem_partsOf.mpr ⟨st, hst, hp⟩))
  refine List.forall_mem_append.mpr
    ⟨Stmt.isIrregular_of_statements ?_, Stmt.isIrregular_of_statements ?_⟩
  · intro st hst
    exact hpart (List.mem_append_left _ hst)
  · intro st hst p hp
    rw [← Stmt.isIrregular_rename f.rename]
    refine hpart (List.mem_append_right _ (List.mem_map_of_mem hst)) _ ?_
    rw [Stmt.parts_rename]
    exact List.mem_map_of_mem hp

/-- No approval without an analysis: the region of an approved loop has been analyzed, all loops in
it count upward, and no other control flow than theirs and that of `if` stands in it, nor in the
bodies of two loops that are to be fused. -/
theorem Transformation.isRegular_of_isOk {c : CheckContext} {sel : Selection} {t : Transformation}
    {status : Status} (h : t.check c sel = .ok status) (hok : status.isOk = true) :
    ∃ l an, sel.stmt.forLoop? = some l ∧ c.analyze [(t.region sel l).stmt] = .ok an ∧
      (∀ p ∈ (t.region sel l).stmt.parts, p.isIrregular = false ∧
        ∀ k, p.forLoop? = some k → ∃ cl, CountedLoop.ofHeader? k.header = some cl) ∧
      (t = .fuse → ∃ f, Fusion.ofSelection? sel = some f ∧ f.first = l ∧
        t.region sel l = f.fused ∧
        ∀ p ∈ f.first.body.parts ++ f.second.body.parts, p.isIrregular = false) := by
  obtain ⟨l, an, -, hl, hform, han, -⟩ := exists_of_isOk h hok
  obtain ⟨t₁, t₂, hwalks⟩ := Analyzer.exists_walks han
  have hregular := Stmt.isRegular_of_walks _ hwalks
  refine ⟨l, an, hl, han, hregular, ?_⟩
  rintro rfl
  obtain ⟨f, hf, hfirst, hregion⟩ := exists_fusion_of_warnings hl hform
  rw [hregion] at hregular
  exact ⟨f, hf, hfirst, hregion, Fusion.isIrregular_of_fused fun p hp => (hregular p hp).1⟩

open TwoFills in
theorem Transformation.isRegular_twoFills :
    fuse.check checkContext selection = .ok .clean ∧ Status.clean.isOk = true ∧
      (∃ an, checkContext.analyze [fusion.fused.stmt] = .ok an) ∧
      ∀ p ∈ fusion.first.body.parts ++ fusion.second.body.parts, p.isIrregular = false := by
  have hok : Status.clean.isOk = true := rfl
  obtain ⟨l, an, hl, han, -, hfuse⟩ := isRegular_of_isOk check_selection hok
  obtain ⟨f, hf, -, hregion, hbodies⟩ := hfuse rfl
  obtain rfl : fusion = f := Option.some.inj hf
  exact ⟨check_selection, hok, ⟨an, hregion ▸ han⟩, hbodies⟩

end LoopLegality
