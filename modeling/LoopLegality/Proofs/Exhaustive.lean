import LoopLegality.Proofs.Search

namespace LoopLegality

namespace Direction

def IsExact (d : Direction) : Prop := d = lt ∨ d = eq ∨ d = gt

/-- The order in which a refined entry is tried. -/
def rank : Direction → Nat
  | lt => 0
  | eq => 1
  | gt => 2
  | _ => 3

def VectorLt : List Direction → List Direction → Prop := List.Lex fun d e => d.rank < e.rank

theorem VectorLt.ne {v w : List Direction} (h : VectorLt v w) : v ≠ w := by
  have hlex : List.Lex (· ≠ ·) v w := List.Lex.imp (fun d e hd he => by simp [he] at hd) v w h
  exact hlex.to_ne

theorem IsExact.exists_ofDistance {d : Direction} (h : d.IsExact) : ∃ n, d = ofDistance n := by
  obtain rfl | rfl | rfl := h
  · exact ⟨1, rfl⟩
  · exact ⟨0, rfl⟩
  · exact ⟨-1, rfl⟩

def LedBackward (v : List Direction) : Prop := v.find? (· != .eq) = some .gt

theorem ledBackward_cons {d : Direction} {v : List Direction} :
    LedBackward (d :: v) ↔ d = .gt ∨ d = .eq ∧ LedBackward v := by
  cases d <;> simp [LedBackward]

theorem lexNonnegative_of_not_ledBackward {ns : List Int}
    (h : ¬ LedBackward (ns.map ofDistance)) : LexNonnegative ns := by
  induction ns with
  | nil => trivial
  | cons n ns ih =>
    rw [List.map_cons, ledBackward_cons, not_or] at h
    obtain ⟨hgt, hrest⟩ := h
    by_cases hn : n = 0
    · exact Or.inr ⟨hn, ih fun hled => hrest ⟨ofDistance_eq_eq.mpr hn, hled⟩⟩
    · left
      by_contra hle
      exact hgt (by rw [ofDistance, if_pos (by omega)])

end Direction

namespace DependenceProblem

open Direction

variable {p : DependenceProblem} {x : Nat → Int}

/-- Every vector that extends the chosen entries by `n`, whatever the tests say. -/
def refinements : Nat → List Direction → List (List Direction)
  | 0, chosen => [chosen]
  | n + 1, chosen => (candidates chosen).flatMap fun d => refinements n (chosen ++ [d])

theorem flatten_sublist {α β : Type} {g : α → List β} {as : List α} {bss : List (List β)}
    (h : List.Forall₂ (fun a bs => bs.Sublist (g a)) as bss) :
    bss.flatten.Sublist (as.flatMap g) := by
  induction h with
  | nil => exact List.Sublist.refl _
  | cons hab _ ih =>
    rw [List.flatten_cons, List.flatMap_cons]
    exact hab.append ih

theorem Lists.sublist {n : Nat} {chosen : List Direction} {vs : List (List Direction)}
    (h : p.Lists n chosen vs) : vs.Sublist (refinements n chosen) := by
  obtain ⟨-, h⟩ | ⟨-, rfl⟩ := h
  · induction n generalizing chosen vs with
    | zero =>
      cases h
      exact List.Sublist.refl _
    | succ n ih =>
      obtain ⟨found, hfound, rfl⟩ := refine_succ_eq_ok.mp h
      refine flatten_sublist (hfound.imp fun d ws hws => ?_)
      obtain ⟨-, h⟩ | ⟨-, rfl⟩ := hws
      · exact ih h
      · exact List.nil_sublist _
  · exact List.nil_sublist _

theorem directions_sublist {vs : List (List Direction)} (h : p.directions = .ok vs) :
    vs.Sublist (refinements p.depth []) :=
  (directions_eq_ok.mp h).sublist

theorem exists_append_of_mem_refinements {n : Nat} {chosen w : List Direction}
    (h : w ∈ refinements n chosen) : ∃ v, w = chosen ++ v ∧ v.length = n := by
  induction n generalizing chosen with
  | zero => exact ⟨[], by simpa [refinements] using h, rfl⟩
  | succ n ih =>
    obtain ⟨d, -, h⟩ := List.mem_flatMap.mp h
    obtain ⟨v, rfl, hlen⟩ := ih h
    exact ⟨d :: v, by simp, by simp [hlen]⟩

theorem candidates_sorted (chosen : List Direction) :
    (candidates chosen).Pairwise fun d e => d.rank < e.rank := by
  rw [candidates]
  split <;> simp [rank]

/-- Refinement goes through the vectors in lexicographic order. -/
theorem refinements_sorted (n : Nat) (chosen : List Direction) :
    (refinements n chosen).Pairwise VectorLt := by
  induction n generalizing chosen with
  | zero => exact List.pairwise_singleton _ _
  | succ n ih =>
    refine List.pairwise_flatMap.mpr ⟨fun d _ => ih _, (candidates_sorted chosen).imp ?_⟩
    intro d e hlt v hv w hw
    obtain ⟨v, rfl, -⟩ := exists_append_of_mem_refinements hv
    obtain ⟨w, rfl, -⟩ := exists_append_of_mem_refinements hw
    rw [List.append_assoc, List.append_assoc]
    exact List.Lex.append_left (fun d e => d.rank < e.rank) (List.Lex.rel hlt) chosen

theorem isExact_of_mem_candidates {chosen : List Direction} {d : Direction}
    (h : d ∈ candidates chosen) : d.IsExact := by
  rw [candidates] at h
  split at h <;> simp at h <;> unfold IsExact <;> tauto

theorem not_ledBackward_of_mem_refinements {n : Nat} {chosen w : List Direction}
    (hc : ¬ LedBackward chosen) (h : w ∈ refinements n chosen) : ¬ LedBackward w := by
  induction n generalizing chosen with
  | zero => rwa [List.mem_singleton.mp h]
  | succ n ih =>
    obtain ⟨d, hd, h⟩ := List.mem_flatMap.mp h
    refine ih ?_ h
    rw [LedBackward, List.find?_append]
    cases hfind : chosen.find? (· != .eq) with
    | some e => simpa [LedBackward, hfind] using hc
    | none =>
      have hall : chosen.all (· == .eq) = true := by simpa using hfind
      rw [candidates, if_pos hall] at hd
      simp only [List.mem_cons, List.not_mem_nil, or_false] at hd
      obtain rfl | rfl := hd <;> simp

theorem isExact_of_mem_refinements {n : Nat} {chosen w : List Direction}
    (hc : ∀ d ∈ chosen, d.IsExact) (h : w ∈ refinements n chosen) : ∀ d ∈ w, d.IsExact := by
  induction n generalizing chosen with
  | zero => rwa [List.mem_singleton.mp h]
  | succ n ih =>
    obtain ⟨d, hd, h⟩ := List.mem_flatMap.mp h
    refine ih ?_ h
    rw [List.forall_mem_append, List.forall_mem_singleton]
    exact ⟨hc, isExact_of_mem_candidates hd⟩

theorem test_of_mem_directions {vs : List (List Direction)} (h : p.directions = .ok vs)
    {v : List Direction} (hv : v ∈ vs) : ∃ f, p.test v = .ok f ∧ f ≠ .infeasible := by
  obtain ⟨-, -, -, -, hlast, -⟩ := survives_of_lists (directions_eq_ok.mp h) hv
  obtain ⟨f, hf, hmay⟩ := mayHold_eq_ok.mp hlast
  exact ⟨f, by simpa using hf, by simpa [Feasibility.mayHold] using hmay⟩

/-- A vector that an exhaustive search would try: an exact entry for each common loop, and
nothing that belongs to the reverse pair. -/
structure IsRefined (p : DependenceProblem) (v : List Direction) : Prop where
  length : v.length = p.depth
  isExact : ∀ d ∈ v, d.IsExact
  forward : ¬ LedBackward v

theorem isRefined_of_mem_directions {vs : List (List Direction)} (h : p.directions = .ok vs)
    {v : List Direction} (hv : v ∈ vs) : p.IsRefined v := by
  have hmem : v ∈ refinements p.depth [] := (directions_sublist h).subset hv
  obtain ⟨w, rfl, hlen⟩ := exists_append_of_mem_refinements hmem
  exact ⟨hlen, isExact_of_mem_refinements (by simp) hmem,
    not_ledBackward_of_mem_refinements (by simp [LedBackward]) hmem⟩

theorem IsRefined.mem_directions {vs : List (List Direction)} (h : p.directions = .ok vs)
    {v : List Direction} (hp : p.Levelled) (hv : p.IsRefined v) (hx : p.system.Satisfies x)
    (hadmits : List.Forall₂ Admits v (p.distances x)) : v ∈ vs := by
  obtain rfl : v = (p.distances x).map ofDistance :=
    eq_of_admits hadmits fun d hd => (hv.isExact d hd).exists_ofDistance
  exact DependenceProblem.mem_directions h (by simp [distances, depth])
    (survives_of_satisfies hp hx [] _ rfl) (lexNonnegative_of_not_ledBackward hv.forward)

/-- The search comes to test these entries, with the entries behind them left open. -/
inductive Reaches (p : DependenceProblem) : List Direction → Prop
  | root : p.Reaches []
  | step {chosen : List Direction} {d : Direction} : p.Reaches chosen →
      chosen.length < p.depth → p.mayHold chosen (p.depth - chosen.length) = .ok true →
      d ∈ candidates chosen → p.Reaches (chosen ++ [d])

theorem Reaches.exists_lists {vs : List (List Direction)} (h : p.directions = .ok vs)
    {chosen : List Direction} (hc : p.Reaches chosen) :
    ∃ ws, p.Lists (p.depth - chosen.length) chosen ws := by
  induction hc with
  | root => exact ⟨vs, directions_eq_ok.mp h⟩
  | @step chosen d _ hlt hmay hd ih =>
    obtain ⟨ws, ⟨-, hws⟩ | ⟨hno, -⟩⟩ := ih
    · obtain ⟨n, hn⟩ : ∃ n, p.depth - chosen.length = n + 1 :=
        ⟨p.depth - chosen.length - 1, by omega⟩
      rw [hn] at hws
      obtain ⟨found, hfound, -⟩ := refine_succ_eq_ok.mp hws
      obtain ⟨ws, -, hlists⟩ := exists_of_mem_left hfound hd
      have hlen : p.depth - (chosen ++ [d]).length = n := by
        rw [List.length_append, List.length_singleton]
        omega
      exact ⟨ws, by rwa [hlen]⟩
    · cases hmay.symm.trans hno

theorem exists_lists {n : Nat} {chosen : List Direction} (ht : ∃ b, p.mayHold chosen n = .ok b)
    (hrefine : p.mayHold chosen n = .ok true → ∃ vs, p.refine n chosen = .ok vs) :
    ∃ vs, p.Lists n chosen vs := by
  obtain ⟨_ | _, hb⟩ := ht
  · exact ⟨[], Or.inr ⟨hb, rfl⟩⟩
  · obtain ⟨vs, hvs⟩ := hrefine hb
    exact ⟨vs, Or.inl ⟨hb, hvs⟩⟩

theorem exists_lists_of_reaches
    (h : ∀ c, p.Reaches c → ∃ b, p.mayHold c (p.depth - c.length) = .ok b) {n : Nat}
    {chosen : List Direction} (hc : p.Reaches chosen) (hn : p.depth - chosen.length = n) :
    ∃ vs, p.Lists n chosen vs := by
  induction n generalizing chosen with
  | zero => exact exists_lists (hn ▸ h chosen hc) fun _ => ⟨[chosen], rfl⟩
  | succ n ih =>
    refine exists_lists (hn ▸ h chosen hc) fun hmay => ?_
    -- the search goes on with each candidate
    have hnext : ∀ d ∈ candidates chosen, ∃ ws, p.Lists n (chosen ++ [d]) ws := by
      intro d hd
      refine ih (hc.step (by omega) (by rwa [hn]) hd) ?_
      rw [List.length_append, List.length_singleton]
      omega
    obtain ⟨found, hfound⟩ := exists_forall₂ hnext
    exact ⟨found.flatten, refine_succ_eq_ok.mpr ⟨found, hfound, rfl⟩⟩

theorem directions_returns_iff : (∃ vs, p.directions = .ok vs) ↔
    ∀ c, p.Reaches c → ∃ f, p.test (c ++ List.replicate (p.depth - c.length) .any) = .ok f := by
  have hmay (c : List Direction) : (∃ b, p.mayHold c (p.depth - c.length) = .ok b) ↔
      ∃ f, p.test (c ++ List.replicate (p.depth - c.length) .any) = .ok f := by
    simp only [mayHold_eq_ok]
    rw [exists_comm]
    exact exists_congr fun f => by simp
  simp only [← hmay]
  constructor
  · rintro ⟨vs, h⟩ c hc
    obtain ⟨ws, ⟨hb, -⟩ | ⟨hb, -⟩⟩ := hc.exists_lists h
    · exact ⟨true, hb⟩
    · exact ⟨false, hb⟩
  · intro h
    obtain ⟨vs, hvs⟩ := exists_lists_of_reaches h .root rfl
    exact ⟨vs, directions_eq_ok.mpr hvs⟩

theorem search_eq_ok {vs : List (List Direction)} :
    p.search false = .ok vs ↔ p.directions = .ok vs := by
  rw [search, if_neg Bool.false_ne_true, mapError_eq_ok]

/-- The pruned search yields what an exhaustive one over all refined vectors would. Only a test
that it comes to and that overflows keeps it from an answer. It lists vectors in lexicographic
order, each once and none that the test of the whole vector rules out, and it misses no vector
that admits the distances of an integer point. -/
theorem search_exhaustive (hp : p.Levelled) :
    ((∃ vs, p.search false = .ok vs) ↔ ∀ c, p.Reaches c →
      ∃ f, p.test (c ++ List.replicate (p.depth - c.length) .any) = .ok f) ∧
    ∀ vs, p.search false = .ok vs → vs.Nodup ∧ vs.Pairwise VectorLt ∧
      (∀ v ∈ vs, p.IsRefined v ∧ ∃ f, p.test v = .ok f ∧ f ≠ .infeasible) ∧
      ∀ v, p.IsRefined v →
        (∃ x, p.system.Satisfies x ∧ List.Forall₂ Admits v (p.distances x)) → v ∈ vs := by
  simp only [search_eq_ok]
  refine ⟨directions_returns_iff, fun vs h => ?_⟩
  have hsorted : vs.Pairwise VectorLt :=
    (refinements_sorted p.depth []).sublist (directions_sublist h)
  refine ⟨hsorted.imp VectorLt.ne, hsorted, ?_, ?_⟩
  · exact fun v hv => ⟨isRefined_of_mem_directions h hv, test_of_mem_directions h hv⟩
  · rintro v hv ⟨x, hx, hadmits⟩
    exact hv.mem_directions h hp hx hadmits

/-- The unknowns of the write of `a[i][j]` and the read of `a[i - 1][j + 1]`, up to their
subscripts. -/
def diagonal : DependenceProblem where
  system := ((ConstraintSystem.empty 4).addEq [-1, 1, 0, 0] 1).addEq [0, 0, -1, 1] (-1)
  levels := [(0, 1), (2, 3)]

/-- A bound on the first unknown whose coefficient is the least word. -/
def steep : DependenceProblem where
  system := ((ConstraintSystem.empty 2).addLe [1, 0] 0).addLe [-(2 ^ 63), 0] (2 ^ 62)
  levels := [(0, 1)]

/-- The value written by one iteration of `diagonal` is read by the next one of the outer loop,
one step back in the inner loop. In `steep` an iteration and the next one meet as well, but the
test of the whole system overflows, and the search lists nothing. -/
theorem search_diagonal :
    diagonal.Levelled ∧ (∃ vs, diagonal.search false = .ok vs ∧ vs.Nodup ∧
      vs.Pairwise VectorLt ∧ [.lt, .gt] ∈ vs ∧ ∀ v ∈ vs, diagonal.IsRefined v) ∧
    steep.Levelled ∧ steep.IsRefined [.lt] ∧
      (∃ x, steep.system.Satisfies x ∧ List.Forall₂ Admits [.lt] (steep.distances x)) ∧
      steep.search false = .error .overflow := by
  have hp : diagonal.Levelled := by unfold Levelled; decide
  have hv : diagonal.IsRefined [.lt, .gt] :=
    ⟨rfl, by simp [IsExact], by simp [ledBackward_cons]⟩
  have hx : diagonal.system.Satisfies (fun v => if v = 1 ∨ v = 2 then 1 else 0) := by
    unfold ConstraintSystem.Satisfies
    decide
  have hadmits : List.Forall₂ Admits [.lt, .gt]
      (diagonal.distances fun v => if v = 1 ∨ v = 2 then 1 else 0) := by
    simp [diagonal, distances, Admits]
  have hsearch : diagonal.search false = .ok [[.lt, .gt]] := by cbv
  obtain ⟨hnodup, hsorted, hfound, hmem⟩ := (search_exhaustive hp).2 _ hsearch
  refine ⟨hp, ⟨_, hsearch, hnodup, hsorted, hmem _ hv ⟨_, hx, hadmits⟩,
    fun v hv => (hfound v hv).1⟩, ?_, ?_, ⟨fun v => if v = 1 then 1 else 0, ?_, ?_⟩, by cbv⟩
  · unfold Levelled
    decide
  · exact ⟨rfl, by simp [IsExact], by simp [ledBackward_cons]⟩
  · unfold ConstraintSystem.Satisfies
    decide
  · simp [steep, distances, Admits]

end DependenceProblem

end LoopLegality
