import LoopLegality.Proofs.Evaluated
import LoopLegality.Proofs.Verdict

namespace LoopLegality

namespace Stmt

mutual

theorem firstJump?_rename (r : Symbol → Symbol) : ∀ st : Stmt,
    (st.rename r).firstJump? = st.firstJump?.map (Stmt.rename r)
  | .compound ss s => firstJumpOf?_rename r ss
  | .forLoop h b s => firstJump?_rename r b
  | .branch c t none s => firstJump?_rename r t
  | .branch c t (some e) s => by
    simp only [Stmt.rename, firstJump?, firstJump?_rename r t, firstJump?_rename r e]
    cases t.firstJump? <;> rfl
  | .whileLoop c b s => firstJump?_rename r b
  | .doWhile b c s => firstJump?_rename r b
  | .switch c b s => firstJump?_rename r b
  | .decl .. | .expr .. | .null _ | .ret .. | .caseLabel .. | .defaultLabel _ | .break _
  | .continue _ | .goto .. | .label .. => rfl

theorem firstJumpOf?_rename (r : Symbol → Symbol) : ∀ ss : List Stmt,
    firstJumpOf? (Stmt.renameAll r ss) = (firstJumpOf? ss).map (Stmt.rename r)
  | [] => rfl
  | st :: ss => by
    simp only [Stmt.renameAll, firstJumpOf?, firstJump?_rename r st, firstJumpOf?_rename r ss]
    cases st.firstJump? <;> rfl

end

mutual

theorem firstJump?_of_walks {c : Touch.Context} : ∀ (st : Stmt) {nest : List CountedLoop}
    {t t' : Trail}, Trail.Walks c nest st t t' → st.firstJump? = none
  | .compound ss s, _, _, _, h => firstJumpOf?_of_walks ss fun st hst => by
    obtain ⟨t₁, t₂, h, -⟩ := h.compound hst
    exact ⟨_, t₁, t₂, h⟩
  | .forLoop f b s, _, _, _, h => by
    obtain h | ⟨_, _, _, ⟨⟩, -⟩ := h
    obtain ⟨l, -, t₁, h⟩ := Trail.walk_forLoop_eq_ok h
    exact firstJump?_of_walks b h
  | .branch e y none s, _, _, _, h => by
    obtain h | ⟨_, _, _, ⟨⟩, -⟩ := h
    obtain ⟨ts, -, h⟩ := bind_eq_ok.mp h
    exact firstJump?_of_walks y (Or.inl h)
  | .branch e y (some n) s, _, _, _, h => by
    obtain h | ⟨_, _, _, ⟨⟩, -⟩ := h
    obtain ⟨ts, -, h⟩ := bind_eq_ok.mp h
    obtain ⟨t₁, h₁, h⟩ := bind_eq_ok.mp h
    simp [firstJump?, firstJump?_of_walks y (Or.inl h₁), firstJump?_of_walks n (Or.inl h)]
  | .null _, _, _, _, _ | .decl .., _, _, _, _ | .expr .., _, _, _, _ => rfl
  | .ret .., _, _, _, h | .whileLoop .., _, _, _, h | .doWhile .., _, _, _, h
  | .switch .., _, _, _, h | .caseLabel .., _, _, _, h | .defaultLabel _, _, _, _, h
  | .break _, _, _, _, h | .continue _, _, _, _, h | .goto .., _, _, _, h
  | .label .., _, _, _, h => by
    obtain h | ⟨_, _, _, ⟨⟩, -⟩ := h
    cases h

theorem firstJumpOf?_of_walks {c : Touch.Context} : ∀ ss : List Stmt,
    (∀ st ∈ ss, ∃ nest t t', Trail.Walks c nest st t t') → firstJumpOf? ss = none
  | [], _ => rfl
  | st :: ss, h => by
    obtain ⟨nest, t, t', hst⟩ := h st List.mem_cons_self
    have hss := firstJumpOf?_of_walks ss fun st' hst' => h st' (List.mem_cons_of_mem _ hst')
    simp [firstJumpOf?, firstJump?_of_walks st hst, hss]

end

theorem firstJumpOf?_eq_none {ss : List Stmt} :
    firstJumpOf? ss = none ↔ ∀ st ∈ ss, st.firstJump? = none := by
  induction ss with
  | nil => simp [firstJumpOf?]
  | cons st ss ih =>
    rw [firstJumpOf?, List.forall_mem_cons, ← ih]
    cases st.firstJump? <;> simp

theorem firstJump?_of_statements {st : Stmt} (h : ∀ s ∈ st.statements, s.firstJump? = none) :
    st.firstJump? = none := by
  cases st with
  | compound ss s => exact firstJumpOf?_eq_none.mpr h
  | _ => exact h _ (List.mem_singleton_self _)

end Stmt

theorem Stmt.HasLoop.counted {st : Stmt} {f : ForHeader} (hf : st.HasLoop f)
    {c : Touch.Context} {nest : List CountedLoop} {t t' : Trail}
    (h : Trail.Walks c nest st t t') : ∃ l, CountedLoop.ofHeader? f = some l := by
  induction hf generalizing nest t t' with
  | self f b s =>
    obtain h | ⟨_, _, _, ⟨⟩, -⟩ := h
    obtain ⟨l, hl, -⟩ := Trail.walk_forLoop_eq_ok h
    exact ⟨l, hl⟩
  | body f s _ ih =>
    obtain h | ⟨_, _, _, ⟨⟩, -⟩ := h
    obtain ⟨l, -, t₁, h⟩ := Trail.walk_forLoop_eq_ok h
    exact ih h
  | item s hst _ ih =>
    obtain ⟨t₁, t₂, h, -⟩ := h.compound hst
    exact ih h
  | @yes y f e z s _ ih =>
    obtain h | ⟨_, _, _, ⟨⟩, -⟩ := h
    cases z with
    | none =>
      obtain ⟨ts, -, h⟩ := bind_eq_ok.mp h
      exact ih (Or.inl h)
    | some z =>
      obtain ⟨ts, -, h⟩ := bind_eq_ok.mp h
      obtain ⟨t₁, h₁, -⟩ := bind_eq_ok.mp h
      exact ih (Or.inl h₁)
  | no e y s _ ih =>
    obtain h | ⟨_, _, _, ⟨⟩, -⟩ := h
    obtain ⟨ts, -, h⟩ := bind_eq_ok.mp h
    obtain ⟨t₁, -, h⟩ := bind_eq_ok.mp h
    exact ih (Or.inl h)
  | whileBody | doBody | switchBody | labelled =>
    obtain h | ⟨_, _, _, ⟨⟩, -⟩ := h
    cases h

theorem Analyzer.exists_walks {a : Analyzer} {r : ForLoop} {an : DependenceAnalysis}
    (h : a.analyze [r.stmt] = .ok an) :
    ∃ t t', Trail.Walks a.collector.context [] r.stmt t t' := by
  obtain ⟨tr, htr, -⟩ := Collector.collect_eq_ok (analyze_eq_ok h).1
  obtain ⟨t', hwalk, -⟩ := bind_eq_ok.mp htr
  exact ⟨_, t', Or.inl hwalk⟩

namespace Transformation

variable {c : CheckContext} {sel : Selection} {t : Transformation} {status : Status}

/-- What an approval rests on: warnings at most about the shape, and an analysis whose
dependences give warnings at most. -/
theorem exists_of_isOk (h : t.check c sel = .ok status) (hok : status.isOk = true) :
    ∃ l an fs, sel.stmt.forLoop? = some l ∧
      (∀ d ∈ t.formFindings c sel l, d.severity = .warning) ∧
      c.analyze [(t.region sel l).stmt] = .ok an ∧ t.dependenceFindings l an = .ok fs ∧
      ∀ d ∈ fs, d.severity = .warning := by
  rw [check] at h
  split at h
  · next l hl =>
    obtain ⟨hform, fs, hfs, hw⟩ := findings_of_isOk h hok
    obtain ⟨an, han, hdep⟩ := exists_analysis_of_warnings hfs hw
    exact ⟨l, an, fs, hl, hform, han, hdep, hw⟩
  · cases h

end Transformation

end LoopLegality
