namespace LoopLegality

/-- A finite map on natural numbers, held as its entries in ascending order of key. -/
structure IndexMap (α : Type) where
  entries : List (Nat × α)
  sorted : entries.Pairwise (fun a b => a.1 < b.1)
deriving DecidableEq

namespace IndexMap

variable {α β : Type}

def empty : IndexMap α := ⟨[], .nil⟩

instance : Inhabited (IndexMap α) := ⟨empty⟩

def find (k : Nat) : List (Nat × α) → Option α
  | [] => none
  | e :: es => if e.1 = k then some e.2 else find k es

def get? (m : IndexMap α) (k : Nat) : Option α := find k m.entries

def keys (m : IndexMap α) : List Nat := m.entries.map (·.1)

def values (m : IndexMap α) : List α := m.entries.map (·.2)

def size (m : IndexMap α) : Nat := m.entries.length

def isEmpty (m : IndexMap α) : Bool := m.entries.isEmpty

def contains (m : IndexMap α) (k : Nat) : Bool := (m.get? k).isSome

def insertEntry (k : Nat) (v : α) : List (Nat × α) → List (Nat × α)
  | [] => [(k, v)]
  | e :: es =>
    if k < e.1 then (k, v) :: e :: es
    else if k = e.1 then (k, v) :: es
    else e :: insertEntry k v es

theorem mem_insertEntry {k : Nat} {v : α} {es : List (Nat × α)} {e : Nat × α}
    (h : e ∈ insertEntry k v es) : e = (k, v) ∨ e ∈ es := by
  induction es with
  | nil => exact Or.inl (by simpa [insertEntry] using h)
  | cons a es ih =>
    unfold insertEntry at h
    split at h
    · simpa using h
    · split at h
      · rcases List.mem_cons.mp h with h | h
        · exact Or.inl h
        · exact Or.inr (List.mem_cons_of_mem _ h)
      · rcases List.mem_cons.mp h with h | h
        · exact Or.inr (h ▸ List.mem_cons_self)
        · exact (ih h).imp_right (List.mem_cons_of_mem _)

theorem insertEntry_sorted (k : Nat) (v : α) {es : List (Nat × α)}
    (h : es.Pairwise (fun a b => a.1 < b.1)) :
    (insertEntry k v es).Pairwise (fun a b => a.1 < b.1) := by
  induction es with
  | nil => simp [insertEntry]
  | cons a es ih =>
    obtain ⟨ha, hs⟩ := List.pairwise_cons.mp h
    unfold insertEntry
    split
    · next hk =>
      refine List.pairwise_cons.mpr ⟨fun b hb => ?_, h⟩
      rcases List.mem_cons.mp hb with rfl | hb
      · exact hk
      · exact Nat.lt_trans hk (ha b hb)
    · split
      · next hk => exact List.pairwise_cons.mpr ⟨fun b hb => by simpa [hk] using ha b hb, hs⟩
      · next hk hne =>
        refine List.pairwise_cons.mpr ⟨fun b hb => ?_, ih hs⟩
        rcases mem_insertEntry hb with rfl | hb
        · exact Nat.lt_of_le_of_ne (Nat.le_of_not_lt hk) (Ne.symm hne)
        · exact ha b hb

def insert (m : IndexMap α) (k : Nat) (v : α) : IndexMap α :=
  ⟨insertEntry k v m.entries, insertEntry_sorted k v m.sorted⟩

def filter (m : IndexMap α) (p : Nat → α → Bool) : IndexMap α :=
  ⟨m.entries.filter (fun e => p e.1 e.2), m.sorted.filter _⟩

def erase (m : IndexMap α) (k : Nat) : IndexMap α := m.filter (fun j _ => j != k)

def eraseAll (m : IndexMap α) (ks : List Nat) : IndexMap α := m.filter (fun j _ => !ks.contains j)

def meet [DecidableEq α] (m n : IndexMap α) : IndexMap α :=
  m.filter (fun k v => n.get? k = some v)

/-- The later of two entries for one key wins. -/
def ofList (es : List (Nat × α)) : IndexMap α :=
  es.foldl (fun m e => m.insert e.1 e.2) empty

theorem find_eq_none {es : List (Nat × α)} {k : Nat} (h : ∀ e ∈ es, k < e.1) :
    find k es = none := by
  induction es with
  | nil => rfl
  | cons a es ih =>
    have hk : k < a.1 := h a List.mem_cons_self
    rw [find, if_neg (by omega), ih fun e he => h e (List.mem_cons_of_mem _ he)]

theorem find_insertEntry (k : Nat) (v : α) (es : List (Nat × α)) (j : Nat) :
    find j (insertEntry k v es) = if k = j then some v else find j es := by
  induction es with
  | nil => rfl
  | cons a es ih =>
    unfold insertEntry
    split
    · rfl
    · split
      · next hk => by_cases h : k = j <;> simp [find, h, ← hk]
      · next hk =>
        by_cases h : a.1 = j
        · have hj : k ≠ j := fun hj => hk (hj.trans h.symm)
          simp [find, h, hj]
        · simp only [find, h, if_false, ih]

theorem get?_insert (m : IndexMap α) (k : Nat) (v : α) (j : Nat) :
    (m.insert k v).get? j = if k = j then some v else m.get? j :=
  find_insertEntry k v m.entries j

@[simp] theorem get?_empty (k : Nat) : (empty : IndexMap α).get? k = none := rfl

theorem find_filter {es : List (Nat × α)} (hs : es.Pairwise (fun a b => a.1 < b.1))
    (p : Nat → α → Bool) (k : Nat) :
    find k (es.filter (fun e => p e.1 e.2)) = (find k es).filter (p k) := by
  induction es with
  | nil => rfl
  | cons a es ih =>
    obtain ⟨ha, hs⟩ := List.pairwise_cons.mp hs
    by_cases hk : a.1 = k
    · have hn : find k es = none := find_eq_none (hk ▸ ha)
      by_cases hp : p a.1 a.2
      · simp [find, hk, Option.filter, hk ▸ hp]
      · simp [find, hk, Option.filter, hk ▸ hp, ih hs, hn]
    · by_cases hp : p a.1 a.2 <;> simp [hp, find, hk, ih hs]

theorem get?_filter (m : IndexMap α) (p : Nat → α → Bool) (k : Nat) :
    (m.filter p).get? k = (m.get? k).filter (p k) :=
  find_filter m.sorted p k

theorem get?_erase (m : IndexMap α) (k j : Nat) :
    (m.erase k).get? j = if j = k then none else m.get? j := by
  rw [erase, get?_filter]
  by_cases h : j = k
  · subst h; cases m.get? j <;> simp [Option.filter]
  · cases m.get? j <;> simp [Option.filter, h]

theorem get?_eraseAll (m : IndexMap α) (ks : List Nat) (j : Nat) :
    (m.eraseAll ks).get? j = if j ∈ ks then none else m.get? j := by
  rw [eraseAll, get?_filter]
  by_cases h : j ∈ ks <;> cases m.get? j <;> simp [Option.filter, h]

theorem get?_meet [DecidableEq α] (m n : IndexMap α) (k : Nat) (v : α) :
    (m.meet n).get? k = some v ↔ m.get? k = some v ∧ n.get? k = some v := by
  rw [meet, get?_filter, Option.filter_eq_some_iff]
  simp

theorem mem_of_find {es : List (Nat × α)} {k : Nat} {v : α} (h : find k es = some v) :
    (k, v) ∈ es := by
  induction es with
  | nil => cases h
  | cons a es ih =>
    rw [find] at h
    split at h
    · next hk =>
      cases h
      exact hk ▸ List.mem_cons_self
    · exact List.mem_cons_of_mem _ (ih h)

theorem find_of_mem {es : List (Nat × α)} (hs : es.Pairwise (fun a b => a.1 < b.1))
    {e : Nat × α} (h : e ∈ es) : find e.1 es = some e.2 := by
  induction es with
  | nil => cases h
  | cons a es ih =>
    obtain ⟨ha, hs⟩ := List.pairwise_cons.mp hs
    obtain rfl | h := List.mem_cons.mp h
    · rw [find, if_pos rfl]
    · rw [find, if_neg (Nat.ne_of_lt (ha e h)), ih hs h]

theorem get?_of_mem_entries {m : IndexMap α} {e : Nat × α} (h : e ∈ m.entries) :
    m.get? e.1 = some e.2 :=
  find_of_mem m.sorted h

theorem le_of_find {a : Nat × α} {es : List (Nat × α)}
    (hs : (a :: es).Pairwise (fun a b => a.1 < b.1)) {k : Nat} {v : α}
    (h : find k (a :: es) = some v) : a.1 ≤ k := by
  obtain h | h := List.mem_cons.mp (mem_of_find h)
  · exact Nat.le_of_eq (congrArg Prod.fst h).symm
  · exact Nat.le_of_lt ((List.pairwise_cons.mp hs).1 _ h)

theorem ext_get? {m n : IndexMap α} (h : ∀ k, m.get? k = n.get? k) : m = n := by
  obtain ⟨es, hes⟩ := m
  obtain ⟨ds, hds⟩ := n
  have hfind : ∀ k, find k es = find k ds := h
  clear h
  congr
  induction es generalizing ds with
  | nil =>
    cases ds with
    | nil => rfl
    | cons d ds => simpa [find] using hfind d.1
  | cons e es ih =>
    cases ds with
    | nil => simpa [find] using hfind e.1
    | cons d ds =>
      have he : find e.1 (d :: ds) = some e.2 := by rw [← hfind, find, if_pos rfl]
      have hd : find d.1 (e :: es) = some d.2 := by rw [hfind, find, if_pos rfl]
      have hkey : e.1 = d.1 := Nat.le_antisymm (le_of_find hes hd) (le_of_find hds he)
      rw [find, if_pos hkey.symm] at he
      obtain rfl : d = e := Prod.ext hkey.symm (Option.some.inj he)
      obtain ⟨hlt, hes'⟩ := List.pairwise_cons.mp hes
      obtain ⟨hlt', hds'⟩ := List.pairwise_cons.mp hds
      have htail : ∀ k, find k es = find k ds := by
        intro k
        by_cases hk : d.1 = k
        · rw [find_eq_none (hk ▸ hlt), find_eq_none (hk ▸ hlt')]
        · simpa [find, hk] using hfind k
      rw [ih hes' ds hds' htail]

theorem mem_keys_insert {m : IndexMap α} {k j : Nat} {v : α} :
    j ∈ (m.insert k v).keys ↔ j = k ∨ j ∈ m.keys := by
  obtain ⟨es, hs⟩ := m
  simp only [keys, insert]
  induction es with
  | nil => simp [insertEntry]
  | cons e es ih =>
    obtain ⟨-, hs'⟩ := List.pairwise_cons.mp hs
    rw [insertEntry]
    split
    · simp
    · split
      · next hk => simp [hk]
      · rw [List.map_cons, List.mem_cons, ih hs', List.map_cons, List.mem_cons, or_left_comm]

end IndexMap

def ascending (ns : List Nat) : List Nat := (IndexMap.ofList (ns.map fun n => (n, ()))).keys

theorem sorted_ascending (ns : List Nat) : (ascending ns).Pairwise (· < ·) := by
  rw [ascending, IndexMap.keys, List.pairwise_map]
  exact IndexMap.sorted _

theorem mem_ascending {ns : List Nat} {n : Nat} : n ∈ ascending ns ↔ n ∈ ns := by
  have hfold (es : List (Nat × Unit)) (m : IndexMap Unit) :
      n ∈ (es.foldl (fun m e => m.insert e.1 e.2) m).keys ↔ n ∈ es.map (·.1) ∨ n ∈ m.keys := by
    induction es generalizing m with
    | nil => simp
    | cons e es ih =>
      rw [List.foldl_cons, ih, IndexMap.mem_keys_insert, List.map_cons, List.mem_cons, or_assoc,
        or_left_comm]
  rw [ascending, IndexMap.ofList, hfold]
  simp [IndexMap.keys, IndexMap.empty]

end LoopLegality
