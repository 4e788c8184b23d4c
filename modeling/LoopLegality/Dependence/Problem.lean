import LoopLegality.Access
import LoopLegality.CountedLoop
import LoopLegality.Direction.Search

namespace LoopLegality

abbrev Terms := IndexMap Int

namespace Terms

def unit (v : Nat) : Terms := IndexMap.empty.insert v 1

def sub? (a b : Terms) : Option Terms := do
  let d ← b.entries.foldlM (fun d (v, c) => do
    return d.insert v (← Word.sub? ((d.get? v).getD 0) c)) a
  return d.filter fun _ c => c != 0

def dense (n : Nat) (t : Terms) : List Int := (List.range n).map fun v => (t.get? v).getD 0

end Terms

/-- A system under construction: `terms + constant ≤ 0` and `terms + constant = 0` over
unknowns that are made on demand. Symbols that are no index share one unknown. -/
structure Draft where
  unknowns : Nat
  shared : IndexMap Nat
  le : List (Terms × Int)
  eq : List (Terms × Int)

namespace Draft

abbrev Build := StateT Draft Option

def fresh : Build Nat := modifyGet fun d => (d.unknowns, { d with unknowns := d.unknowns + 1 })

def addLe (terms : Terms) (constant : Int) : Build Unit :=
  modify fun d => { d with le := d.le ++ [(terms, constant)] }

def addEq (terms : Terms) (constant : Int) : Build Unit :=
  modify fun d => { d with eq := d.eq ++ [(terms, constant)] }

/-- The unknown of a symbol: that of its loop, or the one both sides share. -/
def unknownOf (indices : IndexMap Nat) (x : Symbol) : Build Nat := do
  if let some v := indices.get? x then return v
  if let some v := (← get).shared.get? x then return v
  let v ← fresh
  modify fun d => { d with shared := d.shared.insert x v }
  return v

def termsOf (indices : IndexMap Nat) : List (Symbol × Int) → Terms → Build Terms
  | [], terms => return terms
  | (x, c) :: rest, terms => do
    let v ← unknownOf indices x
    let sum ← Word.add? ((terms.get? v).getD 0) c
    termsOf indices rest (terms.insert v sum)

def translate (indices : IndexMap Nat) (l : Linear) : Build (Terms × Int) := do
  return (← termsOf indices l.terms.entries .empty, l.constant)

def folded? (env : ConstEnv) (l : Option Linear) : Option Linear := do (← l).fold? env.get?

/-- The index is no less than its first value, and a whole number of steps away from it. -/
def addLower (l : CountedLoop) (x : Nat) (indices : IndexMap Nat) (lower : Linear) :
    Build Unit := do
  let (terms, c) ← translate indices lower
  addLe (← terms.sub? (.unit x)) c
  if 1 < l.step then
    let k ← fresh
    let row ← Terms.sub? (.unit x) terms
    addEq (row.insert k (← Word.neg? l.step)) (← Word.neg? c)
    addLe (IndexMap.empty.insert k (-1)) 0

def addUpper (x : Nat) (indices : IndexMap Nat) (upper : Linear) : Build Unit := do
  let (terms, c) ← translate indices upper
  addLe (← Terms.sub? (.unit x) terms) (← Word.neg? c)

/-- What holds of the index of a loop while its body runs. Bounds without a linear form say
nothing. -/
def addBounds (l : CountedLoop) (indices : IndexMap Nat) (env : ConstEnv) : Build Unit := do
  let x ← indices.get? l.index
  if let some lower := folded? env l.lowerLinear? then addLower l x indices lower
  if let some upper := folded? env l.upperLinear? then addUpper x indices upper

def addMeeting (env : ConstEnv) (source sink : IndexMap Nat) (a b : Linear) : Build Unit := do
  let (l, lc) ← translate source (← a.fold? env.get?)
  let (r, rc) ← translate sink (← b.fold? env.get?)
  addEq (← l.sub? r) (← Word.sub? lc rc)

def row? (n : Nat) (t : Terms × Int) : Option Row := do
  return ⟨t.1.dense n, ← Word.neg? t.2⟩

def system? (d : Draft) : Option ConstraintSystem := do
  let le ← d.le.mapM (row? d.unknowns)
  let eq ← d.eq.mapM (row? d.unknowns)
  return ((ConstraintSystem.empty d.unknowns).addAllLe le).addAllEq eq

/-- The unknowns of the indices of the loops around an access. The `k`-th common loop has
unknown `2 k + side`, the others get new ones. -/
def indicesOf (loops : IndexMap CountedLoop) (common side : Nat) : Nat → List LoopId →
    IndexMap Nat → Build (IndexMap Nat)
  | _, [], m => return m
  | k, id :: ids, m => do
    let v ← if k < common then pure (2 * k + side) else fresh
    let l ← loops.get? id
    indicesOf loops common side (k + 1) ids (m.insert l.index v)

def addAllBounds (loops : IndexMap CountedLoop) (indices : IndexMap Nat) (env : ConstEnv) :
    List LoopId → Build Unit
  | [] => return
  | id :: ids => do
    addBounds (← loops.get? id) indices env
    addAllBounds loops indices env ids

def addMeetings (env : ConstEnv) (source sink : IndexMap Nat) : List (Linear × Linear) → Build Unit
  | [] => return
  | (a, b) :: rest => do
    addMeeting env source sink a b
    addMeetings env source sink rest

def start (common : Nat) : Draft := ⟨2 * common, .empty, [], []⟩

end Draft

/-- The conditions under which two accesses with linear subscripts touch one element, unless a
word cannot hold some coefficient. -/
def DependenceProblem.ofPair? (loops : IndexMap CountedLoop) (env : ConstEnv)
    (source sink : Access) : Option DependenceProblem := do
  let common := source.commonLoops sink
  let build : Draft.Build Unit := do
    let sourceIndices ← Draft.indicesOf loops common 0 0 source.loops .empty
    let sinkIndices ← Draft.indicesOf loops common 1 0 sink.loops .empty
    Draft.addAllBounds loops sourceIndices env source.loops
    Draft.addAllBounds loops sinkIndices env sink.loops
    let a ← source.linearSubscripts?
    let b ← sink.linearSubscripts?
    Draft.addMeetings env sourceIndices sinkIndices (a.zip b)
  let (_, draft) ← build (.start common)
  return ⟨← draft.system?, (List.range common).map fun k => (2 * k, 2 * k + 1)⟩

end LoopLegality
