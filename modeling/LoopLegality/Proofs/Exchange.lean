import LoopLegality.Dependence
import LoopLegality.Proofs.Exhaustive

namespace LoopLegality

section Exchanged

variable {α β : Type} {i j : Nat}

def exchanged (i j : Nat) (xs : List α) : List α :=
  match xs[i]?, xs[j]? with
  | some a, some b => (xs.set i b).set j a
  | _, _ => xs

theorem exchanged_comm (xs : List α) : exchanged i j xs = exchanged j i xs := by
  rw [exchanged, exchanged]
  cases hi : xs[i]? with
  | none => cases xs[j]? <;> rfl
  | some a =>
    cases hj : xs[j]? with
    | none => rfl
    | some b =>
      by_cases hij : i = j
      · subst hij
        rw [hi] at hj
        cases hj
        rfl
      · exact List.set_comm b a hij

theorem exchanged_self (xs : List α) : exchanged i i xs = xs := by
  rw [exchanged]
  split
  · next a b ha hb =>
    obtain rfl : a = b := Option.some.inj (ha.symm.trans hb)
    obtain ⟨hi, rfl⟩ := List.getElem?_eq_some_iff.mp ha
    rw [List.set_set, List.set_getElem_self]
  · rfl

theorem exchanged_perm (xs : List α) : (exchanged i j xs).Perm xs := by
  rw [exchanged]
  split
  · next a b ha hb =>
    obtain ⟨hi, rfl⟩ := List.getElem?_eq_some_iff.mp ha
    obtain ⟨hj, rfl⟩ := List.getElem?_eq_some_iff.mp hb
    exact List.set_set_perm hi hj
  · exact .refl xs

theorem exchanged_append {xs ys : List α} (hi : i < xs.length) (hj : j < xs.length) :
    exchanged i j (xs ++ ys) = exchanged i j xs ++ ys := by
  simp [exchanged, List.getElem?_append_left, hi, hj]

theorem exchanged_split (pre mid post : List α) (a b : α) :
    exchanged pre.length (pre.length + (mid.length + 1)) (pre ++ a :: (mid ++ b :: post)) =
      pre ++ b :: (mid ++ a :: post) := by
  simp [exchanged, List.set_append_right]

theorem exists_split {xs : List α} (hij : i < j) (hj : j < xs.length) : ∃ pre a mid b post,
    xs = pre ++ a :: (mid ++ b :: post) ∧ i = pre.length ∧ j = pre.length + (mid.length + 1) := by
  have hi : i < xs.length := hij.trans hj
  have hrest : j - i - 1 < (xs.drop (i + 1)).length := by
    rw [List.length_drop]
    omega
  refine ⟨xs.take i, xs[i], (xs.drop (i + 1)).take (j - i - 1), (xs.drop (i + 1))[j - i - 1],
    (xs.drop (i + 1)).drop (j - i - 1 + 1), ?_, ?_, ?_⟩
  · rw [List.getElem_cons_drop, List.take_append_drop, List.getElem_cons_drop,
      List.take_append_drop]
  · rw [List.length_take, min_eq_left hi.le]
  · rw [List.length_take, List.length_take, min_eq_left hi.le, min_eq_left hrest.le]
    omega

theorem forall₂_set {R : α → β → Prop} {xs : List α} {ys : List β} (h : List.Forall₂ R xs ys)
    {a : α} {b : β} (hab : R a b) : List.Forall₂ R (xs.set i a) (ys.set i b) := by
  induction h generalizing i with
  | nil => exact .nil
  | cons hxy hrest ih =>
    cases i with
    | zero => exact .cons hab hrest
    | succ i => exact .cons hxy ih

theorem forall₂_getElem? {R : α → β → Prop} {xs : List α} {ys : List β} (h : List.Forall₂ R xs ys)
    (i : Nat) : Option.Rel R xs[i]? ys[i]? := by
  induction h generalizing i with
  | nil => exact .none
  | cons hxy _ ih =>
    cases i with
    | zero => exact .some hxy
    | succ i => exact ih i

theorem exists_append_of_forall₂ {R : α → β → Prop} {xs xs' : List α} {ys : List β}
    (h : List.Forall₂ R (xs ++ xs') ys) :
    ∃ zs zs', ys = zs ++ zs' ∧ List.Forall₂ R xs zs ∧ List.Forall₂ R xs' zs' := by
  induction xs generalizing ys with
  | nil => exact ⟨[], ys, rfl, .nil, h⟩
  | cons x xs ih =>
    cases h with
    | cons hxy h =>
      obtain ⟨zs, zs', rfl, hzs, hzs'⟩ := ih h
      exact ⟨_ :: zs, zs', rfl, .cons hxy hzs, hzs'⟩

theorem forall₂_exchanged {R : α → β → Prop} {xs : List α} {ys : List β}
    (h : List.Forall₂ R xs ys) : List.Forall₂ R (exchanged i j xs) (exchanged i j ys) := by
  rw [exchanged, exchanged]
  have hi := forall₂_getElem? h i
  have hj := forall₂_getElem? h j
  revert hi hj
  generalize xs[i]? = a, ys[i]? = a', xs[j]? = b, ys[j]? = b'
  rintro (hi | _) (hj | _)
  · exact forall₂_set (forall₂_set h hj) hi
  all_goals exact h

end Exchanged

section Lex

variable {ms ns ps qs : List Int} {x y : Int}

theorem lexPositive_append : LexPositive (ms ++ ns) ↔
    LexPositive ms ∨ (∀ m ∈ ms, m = 0) ∧ LexPositive ns := by
  induction ms with
  | nil => simp [LexPositive]
  | cons m ms ih =>
    simp only [List.cons_append, LexPositive, ih, List.forall_mem_cons]
    tauto

theorem lexNonnegative_append : LexNonnegative (ms ++ ns) ↔
    LexPositive ms ∨ (∀ m ∈ ms, m = 0) ∧ LexNonnegative ns := by
  induction ms with
  | nil => simp [LexPositive]
  | cons m ms ih =>
    simp only [List.cons_append, LexPositive, LexNonnegative, ih, List.forall_mem_cons]
    tauto

theorem lexNonnegative_iff : LexNonnegative ms ↔ LexPositive ms ∨ ∀ m ∈ ms, m = 0 := by
  simpa [LexNonnegative] using @lexNonnegative_append ms []

/-- Where two entries are exchanged, positive distances become negative only if nothing stands
before the two, and the one that comes to the front is negative or, if it is zero, leaves the
front to negative distances behind it. -/
theorem reversed_iff :
    LexPositive (ps ++ x :: (ms ++ y :: qs)) ∧ ¬ LexNonnegative (ps ++ y :: (ms ++ x :: qs)) ↔
      (∀ p ∈ ps, p = 0) ∧
        (y < 0 ∧ LexPositive (x :: ms) ∨ 0 < x ∧ y = 0 ∧ ¬ LexNonnegative ms) := by
  rw [lexPositive_append, lexNonnegative_append]
  constructor
  · rintro ⟨hps | ⟨hps, hpos⟩, hneg⟩
    · exact absurd (Or.inl hps) hneg
    · have hneg : ¬ LexNonnegative (y :: (ms ++ x :: qs)) := fun h => hneg (Or.inr ⟨hps, h⟩)
      refine ⟨hps, ?_⟩
      rw [LexNonnegative, lexNonnegative_append, not_or, not_lt] at hneg
      rw [LexPositive, lexPositive_append] at hpos
      obtain hy | rfl := hneg.1.lt_or_eq
      · refine Or.inl ⟨hy, hpos.imp_right (And.imp_right fun h => h.resolve_right ?_)⟩
        rintro ⟨-, h | ⟨h, -⟩⟩ <;> omega
      · have hms : ¬ LexPositive ms := fun h => hneg.2 ⟨rfl, Or.inl h⟩
        have hx : 0 < x := by
          refine hpos.resolve_right ?_
          rintro ⟨rfl, h | ⟨hzero, h⟩⟩
          · exact hms h
          · exact hneg.2 ⟨rfl, Or.inr ⟨hzero, h.lexNonnegative⟩⟩
        refine Or.inr ⟨hx, rfl, fun h => ?_⟩
        obtain h | hzero := lexNonnegative_iff.mp h
        · exact hms h
        · exact hneg.2 ⟨rfl, Or.inr ⟨hzero, Or.inl hx⟩⟩
  · rintro ⟨hps, hrev⟩
    have hnot : ¬ LexPositive ps := fun h => by
      obtain ⟨p, hp, hne⟩ := h.exists_ne_zero
      exact hne (hps p hp)
    refine ⟨Or.inr ⟨hps, ?_⟩, fun h => ?_⟩
    · rw [LexPositive, lexPositive_append]
      obtain ⟨-, h | ⟨hx, h⟩⟩ | ⟨hx, -⟩ := hrev
      · exact Or.inl h
      · exact Or.inr ⟨hx, Or.inl h⟩
      · exact Or.inl hx
    · obtain ⟨-, h⟩ := h.resolve_left hnot
      rw [LexNonnegative, lexNonnegative_append] at h
      obtain ⟨hy, -⟩ | ⟨hx, rfl, hms⟩ := hrev
      · omega
      · obtain ⟨-, h | ⟨h, -⟩⟩ := h.resolve_left (lt_irrefl 0)
        · exact hms (lexNonnegative_iff.mpr (Or.inl h))
        · exact hms (lexNonnegative_iff.mpr (Or.inr h))

end Lex

namespace Direction

variable {v : List Direction} {ns : List Int} {i j : Nat}

theorem mayBeForward_iff {d : Direction} :
    d.mayBeForward = true ↔ ∃ n, 0 < n ∧ d.Admits n := by
  constructor
  · intro h
    exact ⟨1, one_pos, by cases d <;> simp_all [mayBeForward, Admits]⟩
  · rintro ⟨n, hn, h⟩
    cases d <;> simp only [Admits] at h <;> first | rfl | omega

theorem mayBeBackward_iff {d : Direction} :
    d.mayBeBackward = true ↔ ∃ n, n < 0 ∧ d.Admits n := by
  constructor
  · intro h
    exact ⟨-1, by decide, by cases d <;> simp_all [mayBeBackward, Admits]⟩
  · rintro ⟨n, hn, h⟩
    cases d <;> simp only [Admits] at h <;> first | rfl | omega

theorem mayBeEqual_iff {d : Direction} : d.mayBeEqual = true ↔ d.Admits 0 := by
  cases d <;> simp [mayBeEqual, Admits]

/-- A distance that an entry admits, positive if the entry lets the source run first. -/
def sample : Direction → Int
  | lt | le | any => 1
  | eq => 0
  | gt | ge => -1

theorem forall₂_admits_sample (v : List Direction) : List.Forall₂ Admits v (v.map sample) := by
  induction v with
  | nil => exact .nil
  | cons d v ih =>
    refine .cons ?_ ih
    cases d <;> simp [Admits, sample]

/-- The first distance other than zero may have a sign. -/
def mayLead (sign : Direction → Bool) : List Direction → Bool
  | [] => false
  | d :: v => sign d || d.mayBeEqual && mayLead sign v

theorem mayLead_iff {sign : Direction → Bool} {S : Int → Prop} {L : List Int → Prop}
    (hsign : ∀ d, sign d = true ↔ ∃ n, S n ∧ Admits d n) (hnil : ¬ L [])
    (hcons : ∀ n ns, L (n :: ns) ↔ S n ∨ n = 0 ∧ L ns) :
    mayLead sign v = true ↔ ∃ ns, List.Forall₂ Admits v ns ∧ L ns := by
  induction v with
  | nil => simp [mayLead, hnil]
  | cons d v ih =>
    rw [mayLead, Bool.or_eq_true, Bool.and_eq_true, hsign, mayBeEqual_iff, ih]
    constructor
    · rintro (⟨n, hn, hd⟩ | ⟨hd, ns, hv, hns⟩)
      · exact ⟨n :: v.map sample, .cons hd (forall₂_admits_sample v), (hcons _ _).mpr (Or.inl hn)⟩
      · exact ⟨0 :: ns, .cons hd hv, (hcons _ _).mpr (Or.inr ⟨rfl, hns⟩)⟩
    · rintro ⟨_, _ | ⟨hd, hv⟩, h⟩
      obtain hn | ⟨rfl, hns⟩ := (hcons _ _).mp h
      · exact Or.inl ⟨_, hn, hd⟩
      · exact Or.inr ⟨hd, _, hv, hns⟩

theorem mayLead_forward_iff :
    mayLead mayBeForward v = true ↔ ∃ ns, List.Forall₂ Admits v ns ∧ LexPositive ns :=
  mayLead_iff (fun _ => mayBeForward_iff) id fun _ _ => Iff.rfl

theorem mayLead_backward_iff :
    mayLead mayBeBackward v = true ↔ ∃ ns, List.Forall₂ Admits v ns ∧ ¬ LexNonnegative ns := by
  refine mayLead_iff (fun _ => mayBeBackward_iff) (fun h => h trivial) fun n ns => ?_
  rw [LexNonnegative, not_or, not_and, not_lt, le_iff_lt_or_eq]
  constructor
  · rintro ⟨hn | hn, h⟩
    · exact Or.inl hn
    · exact Or.inr ⟨hn, h hn⟩
  · rintro (hn | ⟨hn, h⟩)
    · exact ⟨Or.inl hn, fun he => absurd he hn.ne⟩
    · exact ⟨Or.inr hn, fun _ => h⟩

theorem all_mayBeEqual_iff :
    v.all mayBeEqual = true ↔ ∃ ns, List.Forall₂ Admits v ns ∧ ∀ n ∈ ns, n = 0 := by
  induction v with
  | nil => simp
  | cons d v ih =>
    rw [List.all_cons, Bool.and_eq_true, mayBeEqual_iff, ih]
    constructor
    · rintro ⟨hd, ns, hv, hns⟩
      exact ⟨0 :: ns, .cons hd hv, List.forall_mem_cons.mpr ⟨rfl, hns⟩⟩
    · rintro ⟨_, _ | ⟨hd, hv⟩, h⟩
      obtain ⟨rfl, hns⟩ := List.forall_mem_cons.mp h
      exact ⟨hd, _, hv, hns⟩

/-- An exchange may turn positive distances round: all before the two entries may be zero, and
either the later entry may be negative with a positive distance before it, or it may be zero with a
positive one in its new place and a negative one between. -/
def mayReverse (i j : Nat) (v : List Direction) : Bool :=
  let low := min i j
  let high := max i j
  (v.take low).all mayBeEqual &&
    (v[high]?.any mayBeBackward && mayLead mayBeForward ((v.take high).drop low) ||
      v[low]?.any mayBeForward && v[high]?.any mayBeEqual &&
        mayLead mayBeBackward ((v.take high).drop (low + 1)))

theorem mayReverse_comm : mayReverse i j v = mayReverse j i v := by
  simp only [mayReverse, min_comm i j, max_comm i j]

theorem mayReverse_split (pre mid post : List Direction) (a b : Direction) :
    mayReverse pre.length (pre.length + (mid.length + 1)) (pre ++ a :: (mid ++ b :: post)) =
      (pre.all mayBeEqual && (b.mayBeBackward && mayLead mayBeForward (a :: mid) ||
        a.mayBeForward && b.mayBeEqual && mayLead mayBeBackward mid)) := by
  have htake : (pre ++ a :: (mid ++ b :: post)).take (pre.length + (mid.length + 1)) =
      pre ++ a :: mid := by
    rw [List.take_length_add_append, List.take_succ_cons, List.take_left]
  have hinner : (pre ++ a :: mid).drop (pre.length + 1) = mid := by
    rw [List.drop_length_add_append, List.drop_one, List.tail_cons]
  simp [mayReverse, htake, hinner]

theorem mayReverse_iff (hi : i < v.length) (hj : j < v.length) : mayReverse i j v = true ↔
    ∃ ns, List.Forall₂ Admits v ns ∧ LexPositive ns ∧ ¬ LexNonnegative (exchanged i j ns) := by
  wlog hij : i ≤ j generalizing i j
  · simp only [mayReverse_comm (i := i), exchanged_comm (i := i)]
    exact this hj hi (Nat.le_of_not_le hij)
  obtain rfl | hlt := hij.eq_or_lt
  · -- nothing lies between an entry and itself
    have hnone : mayReverse i i v = false := by simp [mayReverse, List.drop_take, mayLead]
    rw [hnone, iff_false_left Bool.false_ne_true]
    rintro ⟨ns, -, hpos, hneg⟩
    rw [exchanged_self] at hneg
    exact hneg hpos.lexNonnegative
  obtain ⟨pre, a, mid, b, post, rfl, rfl, rfl⟩ := exists_split hlt hj
  have hexchanged {ps ms : List Int} (hps : List.Forall₂ Admits pre ps)
      (hms : List.Forall₂ Admits mid ms) (x y : Int) (qs : List Int) :
      exchanged pre.length (pre.length + (mid.length + 1)) (ps ++ x :: (ms ++ y :: qs)) =
        ps ++ y :: (ms ++ x :: qs) := by
    rw [hps.length_eq, hms.length_eq, exchanged_split]
  rw [mayReverse_split]
  simp only [Bool.and_eq_true, Bool.or_eq_true]
  constructor
  · rintro ⟨hpre, hrev⟩
    obtain ⟨ps, hps, hzero⟩ := all_mayBeEqual_iff.mp hpre
    have hpost := forall₂_admits_sample post
    obtain ⟨hb, hlead⟩ | ⟨⟨ha, hb⟩, hlead⟩ := hrev
    · obtain ⟨y, hy, hb⟩ := mayBeBackward_iff.mp hb
      obtain ⟨_, _ | ⟨ha, hms⟩, hpos⟩ := mayLead_forward_iff.mp hlead
      refine ⟨_, List.rel_append hps (.cons ha (List.rel_append hms (.cons hb hpost))), ?_⟩
      rw [hexchanged hps hms]
      exact reversed_iff.mpr ⟨hzero, Or.inl ⟨hy, hpos⟩⟩
    · obtain ⟨x, hx, ha⟩ := mayBeForward_iff.mp ha
      obtain ⟨ms, hms, hneg⟩ := mayLead_backward_iff.mp hlead
      refine ⟨_, List.rel_append hps (.cons ha (List.rel_append hms
        (.cons (mayBeEqual_iff.mp hb) hpost))), ?_⟩
      rw [hexchanged hps hms]
      exact reversed_iff.mpr ⟨hzero, Or.inr ⟨hx, rfl, hneg⟩⟩
  · rintro ⟨_, hns, hrev⟩
    obtain ⟨ps, _, rfl, hps, _ | ⟨ha, hrest⟩⟩ := exists_append_of_forall₂ hns
    obtain ⟨ms, _, rfl, hms, _ | ⟨hb, -⟩⟩ := exists_append_of_forall₂ hrest
    rw [hexchanged hps hms, reversed_iff] at hrev
    obtain ⟨hzero, ⟨hy, hpos⟩ | ⟨hx, rfl, hneg⟩⟩ := hrev
    · exact ⟨all_mayBeEqual_iff.mpr ⟨ps, hps, hzero⟩, Or.inl ⟨mayBeBackward_iff.mpr ⟨_, hy, hb⟩,
        mayLead_forward_iff.mpr ⟨_, .cons ha hms, hpos⟩⟩⟩
    · exact ⟨all_mayBeEqual_iff.mpr ⟨ps, hps, hzero⟩, Or.inr ⟨⟨mayBeForward_iff.mpr ⟨_, hx, ha⟩,
        mayBeEqual_iff.mpr hb⟩, mayLead_backward_iff.mpr ⟨ms, hms, hneg⟩⟩⟩

theorem swap_eq_ok (hi : i < v.length) (hj : j < v.length) :
    swap i j v = .ok (exchanged i j v) := by
  simp [swap, exchanged, hi, hj]

theorem lexNonnegative_of_isOrdered (h : List.Forall₂ Admits v ns) (ho : isOrdered v = true)
    (hlead : ∀ d ∈ v.find? (· != eq), d ≠ le ∧ d ≠ any) : LexNonnegative ns := by
  induction h with
  | nil => trivial
  | @cons d n v ns hd _ ih =>
    cases d with
    | eq => exact Or.inr ⟨hd, ih ho hlead⟩
    | lt => exact Or.inl hd
    | gt | ge => cases ho
    | le => exact absurd rfl (hlead le rfl).1
    | any => exact absurd rfl (hlead any rfl).2

theorem isOrdered_of_lexPositive (h : List.Forall₂ Admits v ns) (hn : LexPositive ns)
    (hlead : v.find? (· != eq) ≠ some ge) : isOrdered v = true := by
  induction h with
  | nil => rfl
  | @cons d n v ns hd _ ih =>
    cases d with
    | eq =>
      obtain hn | ⟨-, hn⟩ := hn
      · exact absurd hd hn.ne'
      · exact ih hn hlead
    | gt =>
      have hneg : n < 0 := hd
      rcases hn with hn | ⟨hn, -⟩ <;> omega
    | ge => exact absurd rfl hlead
    | lt | le | any => rfl

/-- The entries that lead before and after an exchange tell the order: the first is looked at, and
the second, if it lets the source run first, is `<`. -/
def LeadDecides (i j : Nat) (v : List Direction) : Prop :=
  v.find? (· != eq) ≠ some ge ∧ ∀ d ∈ (exchanged i j v).find? (· != eq), d ≠ le ∧ d ≠ any

end Direction

variable {i j : Nat}

namespace Dependence

/-- The exchange of two loops does not turn the dependence round, as far as its vector tells. -/
def allowsExchange (i j : Nat) (d : Dependence) : Bool :=
  !(d.kind.isTrue && Direction.isOrdered d.direction) ||
    Direction.isOrdered (exchanged i j d.direction)

theorem allowsExchange_iff {d : Dependence} :
    d.allowsExchange i j = true ↔ (d.kind.isTrue = true → Direction.isOrdered d.direction = true →
      Direction.isOrdered (exchanged i j d.direction) = true) := by
  simp only [allowsExchange, Bool.or_eq_true, Bool.not_eq_true', Bool.and_eq_false_iff]
  cases d.kind.isTrue <;> cases Direction.isOrdered d.direction <;> simp

end Dependence

theorem interchangeable_eq_all {ds : List Dependence}
    (hin : ∀ d ∈ ds, i < d.direction.length ∧ j < d.direction.length) :
    interchangeable i j ds = .ok (ds.all (·.allowsExchange i j)) := by
  induction ds with
  | nil => rfl
  | cons d ds ih =>
    rw [List.forall_mem_cons] at hin
    rw [interchangeable, Direction.swap_eq_ok hin.1.1 hin.1.2, ih hin.2, List.all_cons,
      Dependence.allowsExchange]
    by_cases hk : (d.kind.isTrue && Direction.isOrdered d.direction) = true <;>
      by_cases he : Direction.isOrdered (exchanged i j d.direction) = true <;>
      simp [hk, he, bind, Except.bind, pure, Except.pure]

theorem interchangeable_eq_ok {ds : List Dependence}
    (hin : ∀ d ∈ ds, i < d.direction.length ∧ j < d.direction.length) :
    interchangeable i j ds = .ok true ↔ ∀ d ∈ ds, d.kind.isTrue = true →
      Direction.isOrdered d.direction = true →
        Direction.isOrdered (exchanged i j d.direction) = true := by
  rw [interchangeable_eq_all hin, Except.ok.injEq, List.all_eq_true]
  exact forall₂_congr fun d _ => Dependence.allowsExchange_iff

/-- A value that is written and then read, where the iterations compare as the vector says. -/
def Dependence.along (v : List Direction) : Dependence where
  source := ⟨⟨0, true, none, false, .none⟩, [], 0, 0, 0⟩
  sink := ⟨⟨0, false, none, false, .none⟩, [], 0, 0, 1⟩
  direction := v

/-- An approved exchange keeps in order all positive distances that a dependence between a write
and another access admits, if the leading entries of its vector decide. Where they do not, it does
so exactly if no admitted positive distances can be turned round. -/
theorem interchangeable_sound_iff {ds : List Dependence}
    (hin : ∀ d ∈ ds, i < d.direction.length ∧ j < d.direction.length)
    (hok : interchangeable i j ds = .ok true) : ∀ d ∈ ds, d.kind.isTrue = true →
      ((∀ ns, List.Forall₂ Direction.Admits d.direction ns → LexPositive ns →
        LexNonnegative (exchanged i j ns)) ↔
      Direction.LeadDecides i j d.direction ∨ Direction.mayReverse i j d.direction = false) := by
  intro d hd htrue
  have hordered := (interchangeable_eq_ok hin).mp hok d hd htrue
  have hreverse := Direction.mayReverse_iff (hin d hd).1 (hin d hd).2
  constructor
  · intro h
    refine Or.inr (Bool.eq_false_iff.mpr fun hrev => ?_)
    obtain ⟨ns, hns, hpos, hneg⟩ := hreverse.mp hrev
    exact hneg (h ns hns hpos)
  · rintro (⟨hbefore, hafter⟩ | hnone) ns hns hpos
    · have hv := hordered (Direction.isOrdered_of_lexPositive hns hpos hbefore)
      exact Direction.lexNonnegative_of_isOrdered (forall₂_exchanged hns) hv hafter
    · by_contra hneg
      exact Bool.eq_false_iff.mp hnone (hreverse.mpr ⟨ns, hns, hpos, hneg⟩)

open Direction in
/-- The leading entries of the first vector decide. Those of the other two do not: the second
admits nothing that is turned round, the third does. -/
theorem interchangeable_outer :
    interchangeable 0 1 [.along [lt, lt, any], .along [lt, le], .along [any, any]] = .ok true ∧
      LexNonnegative (exchanged 0 1 [2, 1, -5]) ∧ LexNonnegative (exchanged 0 1 [1, 0]) ∧
      ¬ ∀ ns, List.Forall₂ Admits [any, any] ns → LexPositive ns →
        LexNonnegative (exchanged 0 1 ns) := by
  have hin : ∀ d ∈ [Dependence.along [lt, lt, any], .along [lt, le], .along [any, any]],
      0 < d.direction.length ∧ 1 < d.direction.length := by simp [Dependence.along]
  have hsound := interchangeable_sound_iff hin rfl
  refine ⟨rfl, (hsound (.along [lt, lt, any]) (by simp) rfl).mpr (Or.inl ?_) _ ?_ ?_,
    (hsound (.along [lt, le]) (by simp) rfl).mpr (Or.inr rfl) _ ?_ ?_, fun h => ?_⟩
  · simp [Dependence.along, LeadDecides, exchanged]
  · simp [Dependence.along, Admits]
  · simp [LexPositive]
  · simp [Dependence.along, Admits]
  · simp [LexPositive]
  · obtain ⟨-, h⟩ | h := (hsound (.along [any, any]) (by simp) rfl).mp h
    · exact absurd rfl (h any rfl).2
    · cases h

open Direction in
/-- An exchange may pass the check and turn an admitted positive distance round. In the first
vector the leading `*` is taken to be positive, the second is not looked at. -/
theorem interchangeable_reverses :
    (interchangeable 0 1 [.along [any, any]] = .ok true ∧
      (Dependence.along [any, any]).kind.isTrue = true ∧
      List.Forall₂ Admits [any, any] [1, -1] ∧ LexPositive [1, -1] ∧
      ¬ LexNonnegative (exchanged 0 1 [1, -1])) ∧
    (interchangeable 1 2 [.along [ge, lt, gt]] = .ok true ∧
      (Dependence.along [ge, lt, gt]).kind.isTrue = true ∧
      List.Forall₂ Admits [ge, lt, gt] [0, 1, -1] ∧ LexPositive [0, 1, -1] ∧
      ¬ LexNonnegative (exchanged 1 2 [0, 1, -1])) := by
  refine ⟨⟨rfl, rfl, ?_, ?_, ?_⟩, ⟨rfl, rfl, ?_, ?_, ?_⟩⟩
  all_goals simp [Admits, LexPositive, LexNonnegative, exchanged]

end LoopLegality
