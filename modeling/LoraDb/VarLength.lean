import LoraDb.Trails
import LoraDb.TailFirst

/-!
# Variable-length Expansion

The searches behind a pattern `-[:T*min..max]->`. The buffered one and the source of the pull
pipeline go breadth first, a level of the search at a time, and differ in how they hold a
path: a list of its own, or a segment that shares the one before it. A pattern in an expression
is walked depth first, by recursion, or with a stack of its own when it may be long.

A path repeats no relationship. A pattern without an upper bound stops at 100 hops, and the
buffered search fails when its paths no longer fit in memory.

## Main results

* `variableLengthExpand_eq`: the buffered search.
* `search_drains`: the source, which always runs dry.
* `visit_eq`, `runs_stack`: the two walks.
* `varLength_trails`: each of them finds every trail of the range once.
-/

open Prod (fst snd)
open List Trails

namespace LoraDb

/-- Relationships, each with the node it leads to. -/
abbrev Steps := List (RelationshipId × NodeId)

/-- The hops `min..max` of a pattern, either of which may be left out. -/
structure RangeLiteral where
  start : Option ℕ
  stop : Option ℕ

def MAX_VAR_LEN_HOPS : ℕ := 100

def resolveRange (range : RangeLiteral) : ℕ × ℕ :=
  (range.start.getD 1, range.stop.getD MAX_VAR_LEN_HOPS)

def MAX_VALUE_BYTES : ℕ := 128 * 2 ^ 20

/-- The relationship identifiers one expansion may hold. -/
def VAR_LENGTH_PATH_BUDGET : ℕ := MAX_VALUE_BYTES / 8

def tooManyPaths : String :=
  "variable-length expansion found more paths than fit in " ++
    toString (MAX_VALUE_BYTES / 2 ^ 20) ++
      " MiB; narrow the pattern, lower its upper bound or add a LIMIT"

/-- Where a path ends, and its relationships in order. -/
structure VarLenResult where
  dstNodeId : NodeId
  relIds : List RelationshipId

/-! ### The buffered search -/

/-- What the buffered search has found, the paths it goes on with, and how much it holds. -/
structure Expansion where
  results : List VarLenResult
  nextFrontier : List (NodeId × List RelationshipId)
  held : ℕ

section Buffered

variable (edges : NodeId → Steps) (minHops maxHops : ℕ) (bindRelationships : Bool)

/-- One relationship from the end of a path; on the last hop only results are kept. -/
def expandPath (depth : ℕ) (relsUsed : List RelationshipId) (st : Expansion)
    (edge : RelationshipId × NodeId) : Except String Expansion :=
  if relsUsed.contains edge.1 then .ok st
  else
    let isLastHop := depth == maxHops
    let held := st.held + if bindRelationships || !isLastHop then relsUsed.length + 2 else 1
    if VAR_LENGTH_PATH_BUDGET < held then .error tooManyPaths
    else
      let newRels := relsUsed ++ [edge.1]
      let results :=
        if minHops ≤ depth then
          st.results ++ [⟨edge.2, if bindRelationships then newRels else []⟩]
        else st.results
      .ok ⟨results, if isLastHop then st.nextFrontier else st.nextFrontier ++ [(edge.2, newRels)],
        held⟩

def expandEntry (depth : ℕ) (st : Expansion) (entry : NodeId × List RelationshipId) :
    Except String Expansion :=
  (edges entry.1).foldlM (expandPath minHops maxHops bindRelationships depth entry.2) st

/-- The hops from `depth` on, of which `remaining` are left. -/
def expandHops : (remaining depth : ℕ) → List (NodeId × List RelationshipId) → Expansion →
    Except String Expansion
  | 0, _, _, st => .ok st
  | remaining + 1, depth, frontier, st => do
    let st ← frontier.foldlM (expandEntry edges minHops maxHops bindRelationships depth)
      { st with nextFrontier := [] }
    if depth == maxHops || st.nextFrontier.isEmpty then pure st
    else expandHops remaining (depth + 1) st.nextFrontier st

def variableLengthExpand (startNodeId : NodeId) : Except String (List VarLenResult) := do
  let st ← expandHops edges minHops maxHops bindRelationships maxHops 1 [(startNodeId, [])]
    ⟨[], [], 0⟩
  pure (if minHops = 0 then ⟨startNodeId, []⟩ :: st.results else st.results)

end Buffered

/-- The rows of one input row: paths that end at a node the row already binds. -/
def expandVarLen (edges : NodeId → Steps) (range : RangeLiteral)
    (bindRelationships : Bool) (boundDst : Option NodeId) (startNodeId : NodeId) :
    Except String (List VarLenResult) := do
  let expansions ← variableLengthExpand edges (resolveRange range).1 (resolveRange range).2
    bindRelationships startNodeId
  pure (expansions.filter fun result => boundDst.all (· == result.dstNodeId))

/-! ### What the buffered search finds -/

section BufferedSpec

variable {edges : NodeId → Steps} {minHops maxHops depth : ℕ}
  {bindRelationships : Bool} {a : NodeId}

/-- The entry of a trail in a frontier. -/
def entryOf (a : NodeId) (es : Steps) : NodeId × List RelationshipId :=
  (endpoint a es, es.map fst)

def resultOf (bindRelationships : Bool) (a : NodeId) (es : Steps) : VarLenResult :=
  ⟨endpoint a es, if bindRelationships then es.map fst else []⟩

/-- What a path of some length costs. -/
def pathCost (maxHops : ℕ) (bindRelationships : Bool) (depth : ℕ) : ℕ :=
  if bindRelationships || !(depth == maxHops) then depth + 1 else 1

/-- The state after some trails of one length more, if their cost is within the budget. -/
def Expansion.grow (minHops maxHops : ℕ) (bindRelationships : Bool) (a : NodeId) (depth : ℕ)
    (st : Expansion) (trails : List (Steps)) : Except String Expansion :=
  let held := st.held + trails.length * pathCost maxHops bindRelationships depth
  if VAR_LENGTH_PATH_BUDGET < held then .error tooManyPaths
  else .ok ⟨st.results ++ if minHops ≤ depth then trails.map (resultOf bindRelationships a) else [],
    st.nextFrontier ++ if depth = maxHops then [] else trails.map (entryOf a), held⟩

variable {st : Expansion}

theorem grow_append {ts us : List (Steps)} :
    st.grow minHops maxHops bindRelationships a depth (ts ++ us) =
      st.grow minHops maxHops bindRelationships a depth ts >>= fun st' =>
        st'.grow minHops maxHops bindRelationships a depth us := by
  simp only [Expansion.grow, length_append, Nat.add_mul]
  by_cases hts : VAR_LENGTH_PATH_BUDGET <
      st.held + ts.length * pathCost maxHops bindRelationships depth
  · rw [if_pos hts, if_pos (by omega)]
    rfl
  · rw [if_neg hts]
    simp only [bind, Except.bind, ← Nat.add_assoc]
    by_cases hus : VAR_LENGTH_PATH_BUDGET <
        st.held + ts.length * pathCost maxHops bindRelationships depth +
          us.length * pathCost maxHops bindRelationships depth
    · rw [if_pos hus, if_pos hus]
    · rw [if_neg hus, if_neg hus]
      congr 2
      · split <;> simp
      · split <;> simp

theorem grow_nil (hheld : st.held ≤ VAR_LENGTH_PATH_BUDGET) :
    st.grow minHops maxHops bindRelationships a depth [] = .ok st := by
  rw [Expansion.grow, if_neg (by simpa using hheld)]
  cases st
  simp

theorem grow_ok {st st' : Expansion} {ts : List (Steps)}
    (h : st.grow minHops maxHops bindRelationships a depth ts = .ok st') :
    st.held + ts.length * pathCost maxHops bindRelationships depth ≤ VAR_LENGTH_PATH_BUDGET ∧
      (st'.results =
        st.results ++ if minHops ≤ depth then ts.map (resultOf bindRelationships a) else []) ∧
      (st'.nextFrontier = st.nextFrontier ++ if depth = maxHops then [] else ts.map (entryOf a)) ∧
      st'.held = st.held + ts.length * pathCost maxHops bindRelationships depth := by
  rw [Expansion.grow] at h
  split at h
  · cases h
  next hle =>
    cases h
    exact ⟨not_lt.mp hle, rfl, rfl, rfl⟩

theorem grow_held {st st' : Expansion} {ts : List (Steps)}
    (h : st.grow minHops maxHops bindRelationships a depth ts = .ok st') :
    st'.held ≤ VAR_LENGTH_PATH_BUDGET := by
  obtain ⟨hle, -, -, hheld⟩ := grow_ok h
  exact hheld.trans_le hle

/-- One relationship grows the state by one trail, or by none. -/
theorem expandPath_eq (a : NodeId) {es : Steps} {edge : RelationshipId × NodeId}
    (hlength : es.length + 1 = depth) (hnew : edge.1 ∉ es.map fst) :
    expandPath minHops maxHops bindRelationships depth (es.map fst) st edge =
      st.grow minHops maxHops bindRelationships a depth [es ++ [edge]] := by
  rw [expandPath, if_neg (by simpa using hnew), Expansion.grow, pathCost]
  simp only [length_map, length_singleton, one_mul, ← hlength]
  have hresults : (if minHops ≤ es.length + 1 then st.results ++
        [⟨edge.2, if bindRelationships then es.map fst ++ [edge.1] else []⟩]
      else st.results) = st.results ++
        if minHops ≤ es.length + 1 then [es ++ [edge]].map (resultOf bindRelationships a)
        else [] := by
    split
    · simp [resultOf]
    · exact (append_nil _).symm
  have hnext : (if (es.length + 1 == maxHops) = true then st.nextFrontier
      else st.nextFrontier ++ [(edge.2, es.map fst ++ [edge.1])]) = st.nextFrontier ++
        if es.length + 1 = maxHops then [] else [es ++ [edge]].map (entryOf a) := by
    by_cases hlast : es.length + 1 = maxHops <;> simp [hlast, entryOf]
  rw [hresults, hnext]

theorem expandEntry_eq {es : Steps}
    (hheld : st.held ≤ VAR_LENGTH_PATH_BUDGET) (hlength : es.length + 1 = depth) :
    expandEntry edges minHops maxHops bindRelationships depth st (entryOf a es) =
      st.grow minHops maxHops bindRelationships a depth (extensions edges a es) := by
  rw [expandEntry, extensions, onward]
  change (edges (endpoint a es)).foldlM _ st = _
  induction edges (endpoint a es) generalizing st with
  | nil => exact (grow_nil hheld).symm
  | cons edge rest ih =>
    rw [foldlM_cons]
    by_cases hnew : edge.1 ∈ es.map fst
    · have hskip : expandPath minHops maxHops bindRelationships depth (entryOf a es).2 st edge =
          .ok st := by
        rw [expandPath, if_pos (by simpa [entryOf] using hnew)]
      rw [hskip, filter_cons_of_neg (by simpa using hnew)]
      exact ih hheld
    · rw [filter_cons_of_pos (by simpa using hnew), map_cons, ← singleton_append, grow_append,
        ← expandPath_eq a hlength hnew]
      change (expandPath _ _ _ _ (es.map fst) _ _ >>= _) = _
      cases hst : expandPath minHops maxHops bindRelationships depth (es.map fst) st
          edge with
      | error message => rfl
      | ok st' => exact ih (grow_held (expandPath_eq a hlength hnew ▸ hst))

theorem expandFrontier_eq {ts : List (Steps)}
    (hheld : st.held ≤ VAR_LENGTH_PATH_BUDGET) (hlength : ∀ es ∈ ts, es.length + 1 = depth) :
    (ts.map (entryOf a)).foldlM (expandEntry edges minHops maxHops bindRelationships depth) st =
      st.grow minHops maxHops bindRelationships a depth (ts.flatMap (extensions edges a)) := by
  induction ts generalizing st with
  | nil => exact (grow_nil hheld).symm
  | cons es ts ih =>
    rw [map_cons, foldlM_cons, flatMap_cons, grow_append,
      expandEntry_eq hheld (hlength es mem_cons_self)]
    cases hst : st.grow minHops maxHops bindRelationships a depth (extensions edges a es) with
    | error message => rfl
    | ok st' => exact ih (grow_held hst) fun es hes => hlength es (mem_cons_of_mem _ hes)

theorem level_nil_of_le {n m : ℕ} (h : level edges a n = []) (hle : n ≤ m) :
    level edges a m = [] := by
  induction m, hle using Nat.le_induction with
  | base => exact h
  | succ m _ ih => rw [level, ih, flatMap_nil]

/-- What the hops from `depth` on find. -/
def foundFrom (edges : NodeId → Steps) (minHops : ℕ)
    (bindRelationships : Bool) (a : NodeId) (depth remaining : ℕ) : List VarLenResult :=
  (range' depth remaining).flatMap fun n =>
    if minHops ≤ n then (level edges a n).map (resultOf bindRelationships a) else []

/-- What they hold. -/
def heldFrom (edges : NodeId → Steps) (maxHops : ℕ)
    (bindRelationships : Bool) (a : NodeId) (depth remaining : ℕ) : ℕ :=
  ((range' depth remaining).map fun n =>
    (level edges a n).length * pathCost maxHops bindRelationships n).sum

theorem from_nil {remaining : ℕ} (h : level edges a depth = []) :
    heldFrom edges maxHops bindRelationships a depth remaining = 0 ∧
      foundFrom edges minHops bindRelationships a depth remaining = [] := by
  constructor
  · refine sum_eq_zero fun cost hcost => ?_
    obtain ⟨n, hn, rfl⟩ := mem_map.mp hcost
    rw [level_nil_of_le h (mem_range'_1.mp hn).1, length_nil, zero_mul]
  · rw [foundFrom, flatMap_eq_nil_iff]
    intro n hn
    rw [level_nil_of_le h (mem_range'_1.mp hn).1, map_nil, ite_self]

theorem expandHops_eq {remaining : ℕ}
    (hheld : st.held ≤ VAR_LENGTH_PATH_BUDGET) (hdepth : depth + 1 + remaining = maxHops + 1) :
    (expandHops edges minHops maxHops bindRelationships remaining (depth + 1)
        ((level edges a depth).map (entryOf a)) st).map Expansion.results =
      if VAR_LENGTH_PATH_BUDGET < st.held +
          heldFrom edges maxHops bindRelationships a (depth + 1) remaining then
        .error tooManyPaths
      else
        .ok (st.results ++ foundFrom edges minHops bindRelationships a (depth + 1) remaining) := by
  induction remaining generalizing depth st with
  | zero =>
    rw [if_neg (by simpa [heldFrom] using hheld)]
    simp [expandHops, foundFrom, Except.map]
  | succ remaining ih =>
    have hlevel : ∀ es ∈ level edges a depth, es.length + 1 = depth + 1 :=
      fun es hes => congrArg (· + 1) (mem_level.mp hes).2
    have hcost : heldFrom edges maxHops bindRelationships a (depth + 1) (remaining + 1) =
        (level edges a (depth + 1)).length * pathCost maxHops bindRelationships (depth + 1) +
          heldFrom edges maxHops bindRelationships a (depth + 2) remaining := by
      simp [heldFrom, range'_succ]
    have hfound : foundFrom edges minHops bindRelationships a (depth + 1) (remaining + 1) =
        (if minHops ≤ depth + 1 then
            (level edges a (depth + 1)).map (resultOf bindRelationships a) else []) ++
          foundFrom edges minHops bindRelationships a (depth + 2) remaining := by
      simp [foundFrom, range'_succ]
    rw [expandHops, expandFrontier_eq (by exact hheld) hlevel, hcost, hfound,
      show (level edges a depth).flatMap (extensions edges a) = level edges a (depth + 1)
        from rfl]
    cases hst : Expansion.grow minHops maxHops bindRelationships a (depth + 1)
        { st with nextFrontier := [] } (level edges a (depth + 1)) with
    | error message =>
      rw [Expansion.grow] at hst
      split at hst
      next hbig =>
        cases hst
        rw [if_pos (by
          simp only at hbig
          omega)]
        rfl
      next => cases hst
    | ok st' =>
      obtain ⟨hsmall, hresults, hnext, hheld'⟩ := grow_ok hst
      change Except.map Expansion.results (if _ then Except.ok st' else _) = _
      simp only at hsmall hresults hnext hheld'
      by_cases hlast : depth + 1 = maxHops
      · obtain rfl : remaining = 0 := by omega
        have hstop : (depth + 1 == maxHops || st'.nextFrontier.isEmpty) = true := by simp [hlast]
        rw [if_pos hstop, if_neg (by simpa [heldFrom] using hsmall)]
        simp [Except.map, hresults, foundFrom]
      · rw [if_neg hlast, nil_append] at hnext
        cases hempty : (level edges a (depth + 1)).isEmpty with
        | true =>
          have hnil : level edges a (depth + 1) = [] := isEmpty_iff.mp hempty
          obtain ⟨hzero, hnone⟩ := @from_nil edges minHops maxHops (depth + 2)
            bindRelationships a remaining (level_nil_of_le hnil (Nat.le_succ _))
          have hstop : (depth + 1 == maxHops || st'.nextFrontier.isEmpty) = true := by
            simp [hnext, hnil]
          rw [if_pos hstop, hzero, hnone, if_neg (by omega)]
          simp [Except.map, hresults]
        | false =>
          have hgo : ¬ (depth + 1 == maxHops || st'.nextFrontier.isEmpty) = true := by
            simp [hlast, hnext, isEmpty_eq_false_iff.mp hempty]
          have hle : st'.held ≤ VAR_LENGTH_PATH_BUDGET := by omega
          rw [if_neg hgo, hnext, ih hle (by omega), hheld', hresults, Nat.add_assoc, append_assoc]

theorem map_levels : (levels edges a minHops maxHops).map (resultOf bindRelationships a) =
    (if minHops = 0 then [⟨a, []⟩] else []) ++
      foundFrom edges minHops bindRelationships a 1 maxHops := by
  rw [levels, range_eq_range', range'_succ, flatMap_cons, map_append, map_flatMap, foundFrom]
  congr 1
  · cases minHops with
    | zero => cases bindRelationships <;> rfl
    | succ n => simp
  · refine flatMap_congr fun n _ => ?_
    split <;> rfl

theorem variableLengthExpand_eq : variableLengthExpand edges minHops maxHops bindRelationships a =
    if VAR_LENGTH_PATH_BUDGET < heldFrom edges maxHops bindRelationships a 1 maxHops then
      .error tooManyPaths
    else .ok ((levels edges a minHops maxHops).map (resultOf bindRelationships a)) := by
  have hhops := @expandHops_eq edges minHops maxHops 0 bindRelationships a ⟨[], [], 0⟩ maxHops
    (Nat.zero_le _) (by omega)
  rw [variableLengthExpand, map_levels]
  rw [show (level edges a 0).map (entryOf a) = [(a, [])] from rfl] at hhops
  simp only [Nat.zero_add, nil_append] at hhops
  cases hst : expandHops edges minHops maxHops bindRelationships maxHops 1 [(a, [])]
      ⟨[], [], 0⟩ with
  | error message =>
    rw [hst] at hhops
    split at hhops
    next hbig =>
      cases hhops
      rw [if_pos hbig]
      rfl
    next => cases hhops
  | ok st =>
    rw [hst] at hhops
    split at hhops
    next => cases hhops
    next hsmall =>
      rw [if_neg hsmall]
      simp only [bind, Except.bind, pure, Except.pure, Except.ok.injEq]
      rw [← Except.ok.inj hhops]
      split <;> rfl

end BufferedSpec

/-! ### The source of the pull pipeline -/

/-- The search of one input row. A path is held from its tip: `cons` shares the segment before
it. -/
structure VarLengthSource where
  pendingZeroHop : Bool
  /-- The part of the level not yet looked at. -/
  frontier : List (NodeId × List RelationshipId)
  nextFrontier : List (NodeId × List RelationshipId)
  depth : ℕ
  /-- The path being continued, with the relationships still to try. -/
  current : Option (List RelationshipId × Steps)

/-- One turn of the source's loop. -/
inductive SearchStep where
  | emit (result : VarLenResult) (src : VarLengthSource)
  | skip (src : VarLengthSource)
  | done

section Source

variable (edges : NodeId → Steps) (minHops maxHops : ℕ)
  (bindRelationships : Bool) (boundDst : Option NodeId) (srcId : NodeId)

def startRow : VarLengthSource where
  pendingZeroHop := minHops == 0
  frontier := [(srcId, [])]
  nextFrontier := []
  depth := 1
  current := none

/-- Emit a path, if it is long enough and ends where it should. -/
def emitIf (depth : ℕ) (result : VarLenResult) (src : VarLengthSource) : SearchStep :=
  if minHops ≤ depth ∧ boundDst.all (· == result.dstNodeId) = true then .emit result src
  else .skip src

/-- Try one relationship from the end of a path. -/
def tryEdge (src : VarLengthSource) (path : List RelationshipId)
    (edge : RelationshipId × NodeId) : SearchStep :=
  if path.contains edge.1 then .skip src
  else if src.depth = maxHops ∧ bindRelationships = false then
    emitIf minHops boundDst src.depth ⟨edge.2, []⟩ src
  else
    let newPath := edge.1 :: path
    emitIf minHops boundDst src.depth ⟨edge.2, if bindRelationships then newPath.reverse else []⟩
      { src with nextFrontier :=
          if src.depth < maxHops then src.nextFrontier ++ [(edge.2, newPath)]
          else src.nextFrontier }

def searchStep (src : VarLengthSource) : SearchStep :=
  if src.pendingZeroHop then
    emitIf 0 boundDst 0 ⟨srcId, []⟩ { src with pendingZeroHop := false }
  else if maxHops < src.depth then .done
  else
    match src.current with
    | some (path, edge :: rest) =>
      tryEdge minHops maxHops bindRelationships boundDst { src with current := some (path, rest) }
        path edge
    | some (_, []) => .skip { src with current := none }
    | none =>
      match src.frontier with
      | (nodeId, path) :: frontier =>
        .skip { src with frontier, current := some (path, edges nodeId) }
      | [] =>
        if src.nextFrontier = [] ∨ maxHops ≤ src.depth then .done
        else .skip { src with
          frontier := src.nextFrontier, nextFrontier := [], depth := src.depth + 1 }

/-- The paths a source gives until it is done; the loop ends in every derivation. -/
inductive SearchDrains : VarLengthSource → List VarLenResult → Prop where
  | done {src : VarLengthSource}
      (h : searchStep edges minHops maxHops bindRelationships boundDst srcId src = .done) :
      SearchDrains src []
  | skip {src src' : VarLengthSource} {out : List VarLenResult}
      (h : searchStep edges minHops maxHops bindRelationships boundDst srcId src = .skip src')
      (hrest : SearchDrains src' out) : SearchDrains src out
  | emit {src src' : VarLengthSource} {result : VarLenResult} {out : List VarLenResult}
      (h : searchStep edges minHops maxHops bindRelationships boundDst srcId src =
        .emit result src')
      (hrest : SearchDrains src' out) : SearchDrains src (result :: out)

end Source

section SourceSpec

variable {edges : NodeId → Steps} {minHops maxHops depth : ℕ}
  {bindRelationships : Bool} {boundDst : Option NodeId} {a : NodeId}

/-- A source gives one list of paths. -/
theorem SearchDrains.unique {src : VarLengthSource} {out out' : List VarLenResult}
    (h : SearchDrains edges minHops maxHops bindRelationships boundDst a src out)
    (h' : SearchDrains edges minHops maxHops bindRelationships boundDst a src out') :
    out = out' := by
  induction h generalizing out' with
  | done h =>
    cases h' with
    | done _ => rfl
    | skip h' _ => cases h.symm.trans h'
    | emit h' _ => cases h.symm.trans h'
  | skip h _ ih =>
    cases h' with
    | done h' => cases h.symm.trans h'
    | skip h' hrest' =>
      cases h.symm.trans h'
      exact ih hrest'
    | emit h' _ => cases h.symm.trans h'
  | emit h _ ih =>
    cases h' with
    | done h' => cases h.symm.trans h'
    | skip h' _ => cases h.symm.trans h'
    | emit h' hrest' =>
      cases h.symm.trans h'
      rw [ih hrest']

/-- Where a trail stands in a frontier: its relationships from the tip. -/
def tipOf (a : NodeId) (es : Steps) : NodeId × List RelationshipId :=
  (endpoint a es, (es.map fst).reverse)

/-- What some trails of one length emit. -/
def emitted (minHops : ℕ) (bindRelationships : Bool) (boundDst : Option NodeId) (a : NodeId)
    (depth : ℕ) (ts : List (Steps)) : List VarLenResult :=
  if minHops ≤ depth then
    (ts.map (resultOf bindRelationships a)).filter fun result =>
      boundDst.all (· == result.dstNodeId)
  else []

theorem emitted_cons (es : Steps) (ts : List (Steps)) :
    emitted minHops bindRelationships boundDst a depth (es :: ts) =
      (if minHops ≤ depth ∧ boundDst.all (· == endpoint a es) = true then
        [resultOf bindRelationships a es] else []) ++
          emitted minHops bindRelationships boundDst a depth ts := by
  rw [emitted, emitted]
  by_cases hmin : minHops ≤ depth
  · rw [if_pos hmin, if_pos hmin, map_cons, filter_cons]
    by_cases hdst : boundDst.all (· == endpoint a es) = true
    · simp [hmin, hdst, resultOf]
    · simp [hdst, resultOf]
  · simp [hmin]

theorem emitted_append (ts us : List (Steps)) :
    emitted minHops bindRelationships boundDst a depth (ts ++ us) =
      emitted minHops bindRelationships boundDst a depth ts ++
        emitted minHops bindRelationships boundDst a depth us := by
  rw [emitted, emitted, emitted]
  split
  · rw [map_append, filter_append]
  · rfl

theorem drains_emitIf {src src' : VarLengthSource} {result : VarLenResult} {out : List VarLenResult}
    (h : searchStep edges minHops maxHops bindRelationships boundDst a src =
      emitIf minHops boundDst depth result src')
    (hrest : SearchDrains edges minHops maxHops bindRelationships boundDst a src' out) :
    SearchDrains edges minHops maxHops bindRelationships boundDst a src
      ((if minHops ≤ depth ∧ boundDst.all (· == result.dstNodeId) = true then [result] else []) ++
        out) := by
  rw [emitIf] at h
  split at h
  next hemit =>
    rw [if_pos hemit]
    exact .emit h hrest
  next hskip =>
    rw [if_neg hskip]
    exact .skip h hrest

/-- The state between two paths of a level. -/
def between (a : NodeId) (depth : ℕ) (frontier next : List (Steps))
    (current : Option (List RelationshipId × Steps)) : VarLengthSource :=
  ⟨false, frontier.map (tipOf a), next.map (tipOf a), depth, current⟩

variable {frontier next : List (Steps)}

theorem searchStep_edge {es : Steps} (hdepth : depth ≤ maxHops)
    {edge : RelationshipId × NodeId} (hnew : edge.1 ∉ es.map fst)
    {untried : Steps} :
    searchStep edges minHops maxHops bindRelationships boundDst a
        (between a depth frontier next (some ((tipOf a es).2, edge :: untried))) =
      emitIf minHops boundDst depth (resultOf bindRelationships a (es ++ [edge]))
        (between a depth frontier (next ++ if depth < maxHops then [es ++ [edge]] else [])
          (some ((tipOf a es).2, untried))) := by
  have hcontains : ¬ (tipOf a es).2.contains edge.1 = true := by simpa [tipOf] using hnew
  have htry : tryEdge minHops maxHops bindRelationships boundDst
      (between a depth frontier next (some ((tipOf a es).2, untried))) (tipOf a es).2 edge =
      emitIf minHops boundDst depth (resultOf bindRelationships a (es ++ [edge]))
        (between a depth frontier (next ++ if depth < maxHops then [es ++ [edge]] else [])
          (some ((tipOf a es).2, untried))) := by
    rw [tryEdge, if_neg hcontains]
    by_cases hlast : depth = maxHops ∧ bindRelationships = false
    · rw [if_pos (show (between a depth frontier next _).depth = maxHops ∧ _ from hlast)]
      simp [hlast.1, hlast.2, resultOf, between]
    · rw [if_neg (show ¬ ((between a depth frontier next _).depth = maxHops ∧ _) from hlast)]
      by_cases hlt : depth < maxHops <;> simp [hlt, resultOf, tipOf, between]
  rw [searchStep, if_neg (by simp [between]), if_neg (by simpa [between] using hdepth)]
  exact htry

/-- The relationships from the end of a path. -/
theorem drains_edges {es : Steps} (hdepth : depth ≤ maxHops) {untried : Steps}
    {out : List VarLenResult}
    (hrest : SearchDrains edges minHops maxHops bindRelationships boundDst a
      (between a depth frontier (next ++ if depth < maxHops then
        (untried.filter fun e => decide (e.1 ∉ es.map fst)).map (es ++ [·]) else []) none)
      out) :
    SearchDrains edges minHops maxHops bindRelationships boundDst a
      (between a depth frontier next (some ((tipOf a es).2, untried)))
      (emitted minHops bindRelationships boundDst a depth
        ((untried.filter fun e => decide (e.1 ∉ es.map fst)).map (es ++ [·])) ++ out) := by
  induction untried generalizing next with
  | nil =>
    have hskip : searchStep edges minHops maxHops bindRelationships boundDst a
        (between a depth frontier next (some ((tipOf a es).2, []))) =
          .skip (between a depth frontier next none) := by
      simp [searchStep, between, not_lt.mpr hdepth]
    refine .skip hskip ?_
    simpa [emitted] using hrest
  | cons edge untried ih =>
    by_cases hnew : edge.1 ∈ es.map fst
    · rw [filter_cons_of_neg (by simpa using hnew)] at hrest ⊢
      refine .skip ?_ (ih hrest)
      simp [searchStep, between, not_lt.mpr hdepth, tryEdge, tipOf, hnew]
    · rw [filter_cons_of_pos (by simpa using hnew), map_cons] at hrest ⊢
      rw [emitted_cons, append_assoc]
      refine drains_emitIf (searchStep_edge hdepth hnew) ?_
      refine ih ?_
      split at hrest
      next hlt => simpa [hlt] using hrest
      next hlt => simpa [hlt] using hrest

/-- The paths of a level. -/
theorem drains_frontier (hdepth : depth ≤ maxHops) {out : List VarLenResult}
    (hlength : ∀ es ∈ frontier, es.length + 1 = depth)
    (hrest : SearchDrains edges minHops maxHops bindRelationships boundDst a
      (between a depth [] (next ++ if depth < maxHops then
        frontier.flatMap (extensions edges a) else []) none) out) :
    SearchDrains edges minHops maxHops bindRelationships boundDst a
      (between a depth frontier next none)
      (emitted minHops bindRelationships boundDst a depth
        (frontier.flatMap (extensions edges a)) ++ out) := by
  induction frontier generalizing next with
  | nil => simpa [emitted] using hrest
  | cons es frontier ih =>
    have hload : searchStep edges minHops maxHops bindRelationships boundDst a
        (between a depth (es :: frontier) next none) = .skip (between a depth frontier next
            (some ((tipOf a es).2, edges (endpoint a es)))) := by
      simp [searchStep, between, not_lt.mpr hdepth, tipOf]
    rw [flatMap_cons, emitted_append, append_assoc]
    refine .skip hload (drains_edges hdepth ?_)
    refine ih (fun fs hfs => hlength fs (mem_cons_of_mem _ hfs)) ?_
    split at hrest
    next hlt => simpa [hlt, extensions, onward] using hrest
    next hlt => simpa [hlt] using hrest

/-- What the levels after `depth` emit. -/
def emittedFrom (edges : NodeId → Steps) (minHops : ℕ)
    (bindRelationships : Bool) (boundDst : Option NodeId) (a : NodeId) (depth remaining : ℕ) :
    List VarLenResult :=
  (range' depth remaining).flatMap fun n =>
    emitted minHops bindRelationships boundDst a n (level edges a n)

/-- One level after another, until one is empty or the last. -/
theorem drains_levels {remaining : ℕ} (hdepth : depth + remaining = maxHops) (hpos : 0 < depth) :
    SearchDrains edges minHops maxHops bindRelationships boundDst a
      (between a depth [] (if depth < maxHops then level edges a depth else []) none)
      (emittedFrom edges minHops bindRelationships boundDst a (depth + 1) remaining) := by
  induction remaining generalizing depth with
  | zero =>
    refine .done ?_
    simp [searchStep, between, ← hdepth]
  | succ remaining ih =>
    have hlt : depth < maxHops := by omega
    rw [if_pos hlt]
    cases hempty : (level edges a depth).isEmpty with
    | true =>
      have hnil : level edges a depth = [] := isEmpty_iff.mp hempty
      have hnone : emittedFrom edges minHops bindRelationships boundDst a (depth + 1)
          (remaining + 1) = [] := by
        rw [emittedFrom, flatMap_eq_nil_iff]
        intro n hn
        rw [level_nil_of_le hnil (by
          have := (mem_range'_1.mp hn).1
          omega)]
        simp [emitted]
      rw [hnone, hnil]
      exact .done (by simp [searchStep, between, not_lt.mpr hlt.le])
    | false =>
      have hgo : searchStep edges minHops maxHops bindRelationships boundDst a
          (between a depth [] (level edges a depth) none) =
            .skip (between a (depth + 1) (level edges a depth) [] none) := by
        simp [searchStep, between, not_lt.mpr hlt.le, not_le.mpr hlt,
          isEmpty_eq_false_iff.mp hempty]
      rw [emittedFrom, range'_succ, flatMap_cons]
      refine .skip hgo (drains_frontier hlt ?_ ?_)
      · exact fun es hes => congrArg (· + 1) (mem_level.mp hes).2
      · exact ih (by omega) (Nat.succ_pos _)

/-- The source runs dry on every graph, and gives the trails of the range that end where they
should. -/
theorem search_drains : SearchDrains edges minHops maxHops bindRelationships boundDst a
    (startRow minHops a)
    (((levels edges a minHops maxHops).map (resultOf bindRelationships a)).filter fun result =>
      boundDst.all (· == result.dstNodeId)) := by
  have hall : (((levels edges a minHops maxHops).map (resultOf bindRelationships a)).filter
      fun result => boundDst.all (· == result.dstNodeId)) =
      (if minHops = 0 ∧ boundDst.all (· == a) = true then [⟨a, []⟩] else []) ++
        emittedFrom edges minHops bindRelationships boundDst a 1 maxHops := by
    rw [map_levels, filter_append, foundFrom, filter_flatMap, emittedFrom]
    congr 1
    · by_cases hmin : minHops = 0 <;> simp [hmin, filter_cons]
    · refine flatMap_congr fun n _ => ?_
      rw [emitted]
      split <;> rfl
  have hsearch : SearchDrains edges minHops maxHops bindRelationships boundDst a
      (between a 1 [[]] [] none)
      (emittedFrom edges minHops bindRelationships boundDst a 1 maxHops) := by
    cases maxHops with
    | zero => exact .done (by simp [searchStep, between])
    | succ n =>
      rw [emittedFrom, range'_succ, flatMap_cons]
      refine drains_frontier (Nat.le_add_left _ _) (by simp) ?_
      exact drains_levels (Nat.add_comm _ _) Nat.one_pos
  rw [hall]
  by_cases hmin : minHops = 0
  · subst hmin
    have hzero : searchStep edges 0 maxHops bindRelationships boundDst a (startRow 0 a) =
        emitIf 0 boundDst 0 ⟨a, []⟩ (between a 1 [[]] [] none) := by
      simp [searchStep, startRow, between, tipOf, endpoint]
    simpa using drains_emitIf hzero hsearch
  · rw [if_neg (by simp [hmin]), nil_append]
    have hstart : startRow minHops a = between a 1 [[]] [] none := by
      simp [startRow, between, tipOf, endpoint, hmin]
    exact hstart ▸ hsearch

end SourceSpec

/-! ### The walk of a pattern in an expression -/

/-- Longest pattern that is walked by **recursion**. -/
def RECURSIVE_WALK_MAX_HOPS : ℕ := 32

/-- One step of a pattern: its hops, what the row already binds, the relationships that carry the
properties of its map, and the nodes that match. -/
structure VarLengthWalk where
  minHops : ℕ
  maxHops : ℕ
  dstBound : Option NodeId
  relsBound : Option (List RelationshipId)
  relMatches : RelationshipId → Bool
  nodeMatches : NodeId → Bool

/-- The stack of the walk that keeps its own: for each hop of the path, the relationships still to
try. -/
structure WalkStack where
  path : List RelationshipId
  frames : List (Steps)
  out : List VarLenResult

namespace VarLengthWalk

variable (walk : VarLengthWalk) (edges : NodeId → Steps)

def emit (node : NodeId) (path : List RelationshipId) (out : List VarLenResult) :
    List VarLenResult :=
  if walk.dstBound.any (· != node) || walk.relsBound.any (· != path) then out
  else if walk.nodeMatches node then out ++ [⟨node, path⟩]
  else out

/-- What a path emits where it stands. -/
def arrive (node : NodeId) (path : List RelationshipId) (out : List VarLenResult) :
    List VarLenResult :=
  if walk.minHops ≤ path.length then walk.emit node path out else out

/-- A relationship that is on the path already, or lacks the properties asked for. -/
def skips (path : List RelationshipId) (edge : RelationshipId × NodeId) : Bool :=
  path.contains edge.1 || !walk.relMatches edge.1

/-- The recursive walk; `left` is how many hops the path may still grow. -/
def visit : (left : ℕ) → NodeId → List RelationshipId → List VarLenResult → List VarLenResult
  | 0, node, path, out => walk.arrive node path out
  | left + 1, node, path, out =>
    (edges node).foldl (fun out edge =>
      if walk.skips path edge then out
      else visit left edge.2 (path ++ [edge.1]) out) (walk.arrive node path out)

/-- Visit the node at the end of a path, and push its relationships when the path may grow. -/
def enter (node : NodeId) (path : List RelationshipId) (st : WalkStack) : WalkStack × Bool :=
  let out := walk.arrive node path st.out
  if walk.maxHops ≤ path.length then ({ st with out }, false)
  else ({ st with frames := edges node :: st.frames, out }, true)

/-- One turn of the walk that keeps its own stack. -/
def stackStep (st : WalkStack) : Option WalkStack :=
  match st.frames with
  | [] => none
  | [] :: frames =>
    some { st with frames, path := if frames.isEmpty then st.path else st.path.dropLast }
  | (edge :: rest) :: frames =>
    if walk.skips st.path edge then
      some { st with frames := rest :: frames }
    else
      let path := st.path ++ [edge.1]
      let entered := walk.enter edges edge.2 path { st with frames := rest :: frames }
      some { entered.1 with path := if entered.2 then path else path.dropLast }

/-- The walk runs until no frame is left. -/
inductive StackRuns : WalkStack → List VarLenResult → Prop where
  | done {st : WalkStack} (h : walk.stackStep edges st = none) : StackRuns st st.out
  | step {st st' : WalkStack} {out : List VarLenResult}
      (h : walk.stackStep edges st = some st') (hrest : StackRuns st' out) : StackRuns st out

/-- What a walk from a node gives. -/
def Gives (start : NodeId) (out : List VarLenResult) : Prop :=
  if walk.maxHops ≤ RECURSIVE_WALK_MAX_HOPS then
    out = walk.visit edges walk.maxHops start [] []
  else walk.StackRuns edges (walk.enter edges start [] ⟨[], [], []⟩).1 out

/-- The relationships the walk follows. -/
def followed (node : NodeId) : Steps :=
  (edges node).filter fun edge => walk.relMatches edge.1

/-- The trails that are emitted. -/
def accepts (a : NodeId) (es : Steps) : Bool :=
  decide (walk.minHops ≤ es.length) && walk.dstBound.all (· == endpoint a es) &&
    walk.relsBound.all (· == es.map fst) && walk.nodeMatches (endpoint a es)

def emits (a : NodeId) (ts : List (Steps)) : List VarLenResult :=
  (ts.filter (walk.accepts a)).map (resultOf true a)

variable {walk edges} {a : NodeId} {es : Steps} {out : List VarLenResult}

theorem emits_append (ts us : List (Steps)) :
    walk.emits a (ts ++ us) = walk.emits a ts ++ walk.emits a us := by
  rw [emits, filter_append, map_append]
  rfl

theorem any_bne {α : Type} [BEq α] (bound : Option α) (x : α) :
    bound.any (· != x) = !bound.all (· == x) := by
  cases bound <;> rfl

theorem arrive_eq :
    walk.arrive (endpoint a es) (es.map fst) out = out ++ walk.emits a [es] := by
  rw [arrive, emits, filter_singleton, accepts, length_map]
  by_cases hmin : walk.minHops ≤ es.length
  · rw [if_pos hmin, emit, any_bne, any_bne]
    cases walk.dstBound.all (· == endpoint a es) <;>
      cases walk.relsBound.all (· == es.map fst) <;>
        cases walk.nodeMatches (endpoint a es) <;> simp [hmin, resultOf]
  · simp [hmin]

/-- Which relationships continue a path. -/
theorem extensions_followed : extensions (walk.followed edges) a es =
    ((edges (endpoint a es)).filter fun edge =>
      !walk.skips (es.map fst) edge).map (es ++ [·]) := by
  rw [extensions, onward, followed, filter_filter]
  refine congrArg _ (filter_congr fun edge _ => ?_)
  rw [skips]
  cases walk.relMatches edge.1 <;> simp

theorem below_succ (left : ℕ) (es : Steps) : below (walk.followed edges) a (left + 1) es =
      [es] ++ (((edges (endpoint a es)).filter fun edge =>
        !walk.skips (es.map fst) edge).map (es ++ [·])).flatMap
          (below (walk.followed edges) a left) := by
  rw [← extensions_followed]
  rfl

theorem visit_eq {left : ℕ} : walk.visit edges left (endpoint a es) (es.map fst) out =
    out ++ walk.emits a (below (walk.followed edges) a left es) := by
  induction left generalizing es out with
  | zero => exact arrive_eq
  | succ left ih =>
    rw [visit, arrive_eq, below_succ, emits_append, ← append_assoc]
    generalize out ++ walk.emits a [es] = arrived
    induction edges (endpoint a es) generalizing arrived with
    | nil => simp [emits]
    | cons edge rest ihrest =>
      rw [foldl_cons]
      cases hskip : walk.skips (es.map fst) edge with
      | true =>
        rw [if_pos rfl, filter_cons_of_neg (by simp [hskip])]
        exact ihrest arrived
      | false =>
        have hgrow := @ih (es ++ [edge]) arrived
        rw [endpoint_concat, map_append] at hgrow
        rw [if_neg Bool.false_ne_true, filter_cons_of_pos (by simp [hskip]), map_cons,
          flatMap_cons, emits_append, ← append_assoc, ← hgrow]
        exact ihrest _

/-- A walk gives one list of paths. -/
theorem StackRuns.unique {st : WalkStack} {out' : List VarLenResult}
    (h : walk.StackRuns edges st out) (h' : walk.StackRuns edges st out') : out = out' := by
  induction h with
  | done h =>
    cases h' with
    | done _ => rfl
    | step h' _ => cases h.symm.trans h'
  | step h _ ih =>
    cases h' with
    | done h' => cases h.symm.trans h'
    | step h' hrest' =>
      cases h.symm.trans h'
      exact ih hrest'

variable {frames : List (Steps)}

theorem stackStep_skip {edge : RelationshipId × NodeId} {path : List RelationshipId} {rest : Steps}
    (hskip : walk.skips path edge = true) :
    walk.stackStep edges ⟨path, (edge :: rest) :: frames, out⟩ =
      some ⟨path, rest :: frames, out⟩ := by
  rw [stackStep]
  simp only [hskip, if_true]

/-- A new relationship is emitted, and pushed when the path may still grow. -/
theorem stackStep_edge (a : NodeId) {edge : RelationshipId × NodeId} {rest : Steps}
    (hskip : walk.skips (es.map fst) edge = false) :
    walk.stackStep edges ⟨es.map fst, (edge :: rest) :: frames, out⟩ =
      some (if walk.maxHops ≤ es.length + 1 then
        ⟨es.map fst, rest :: frames, out ++ walk.emits a [es ++ [edge]]⟩
      else ⟨(es ++ [edge]).map fst, edges edge.2 :: rest :: frames,
        out ++ walk.emits a [es ++ [edge]]⟩) := by
  have harrive := @arrive_eq walk a (es ++ [edge]) out
  rw [endpoint_concat, map_append, map_singleton] at harrive
  rw [stackStep]
  simp only [hskip, Bool.false_eq_true, if_false, enter, harrive, length_append, length_map,
    length_singleton]
  split <;> simp

/-- A frame is emptied before the frames below it go on. -/
theorem runs_frame {left : ℕ} (hleft : es.length + 1 + left = walk.maxHops) {untried : Steps}
    {final : List VarLenResult}
    (hrest : walk.StackRuns edges
      ⟨if frames.isEmpty then es.map fst else (es.map fst).dropLast, frames,
        out ++ walk.emits a (((untried.filter fun edge =>
          !walk.skips (es.map fst) edge).map (es ++ [·])).flatMap
            (below (walk.followed edges) a left))⟩ final) :
    walk.StackRuns edges ⟨es.map fst, untried :: frames, out⟩ final := by
  induction left generalizing es untried frames out with
  | zero =>
    induction untried generalizing out with
    | nil => exact .step rfl (by simpa [emits] using hrest)
    | cons edge rest ihrest =>
      cases hskip : walk.skips (es.map fst) edge with
      | true =>
        rw [filter_cons_of_neg (by simp [hskip])] at hrest
        exact .step (stackStep_skip hskip) (ihrest hrest)
      | false =>
        rw [filter_cons_of_pos (by simp [hskip]), map_cons, flatMap_cons, emits_append,
          ← append_assoc] at hrest
        refine .step (stackStep_edge a hskip) ?_
        rw [if_pos (by omega)]
        exact ihrest hrest
  | succ left ih =>
    induction untried generalizing out with
    | nil => exact .step rfl (by simpa [emits] using hrest)
    | cons edge rest ihrest =>
      cases hskip : walk.skips (es.map fst) edge with
      | true =>
        rw [filter_cons_of_neg (by simp [hskip])] at hrest
        exact .step (stackStep_skip hskip) (ihrest hrest)
      | false =>
        rw [filter_cons_of_pos (by simp [hskip]), map_cons, flatMap_cons, emits_append,
          ← append_assoc, below_succ, emits_append, ← append_assoc, endpoint_concat] at hrest
        refine .step (stackStep_edge a hskip) ?_
        rw [if_neg (by omega)]
        refine ih (by simp; omega) ?_
        have hpop : ((es ++ [edge]).map fst).dropLast = es.map fst := by simp
        rw [if_neg (by simp), hpop]
        exact ihrest hrest

/-- A walk gives its trails, depth first. -/
theorem gives_iff : walk.Gives edges a out ↔
    out = walk.emits a (below (walk.followed edges) a walk.maxHops []) := by
  rw [Gives]
  split
  · have hvisit := @visit_eq walk edges a [] [] walk.maxHops
    rw [show walk.visit edges walk.maxHops a [] [] = _ from hvisit, nil_append]
  next hlong =>
    have hstart : walk.enter edges a [] ⟨[], [], []⟩ =
        (⟨[], [edges a], walk.emits a [[]]⟩, true) := by
      have harrive := @arrive_eq walk a [] []
      rw [enter, if_neg (by
        rw [length_nil]
        omega)]
      rw [show walk.arrive a [] [] = _ from harrive, nil_append]
    obtain ⟨left, hleft⟩ : ∃ left, walk.maxHops = left + 1 :=
      ⟨walk.maxHops - 1, by omega⟩
    have hruns : walk.StackRuns edges (walk.enter edges a [] ⟨[], [], []⟩).1
        (walk.emits a (below (walk.followed edges) a walk.maxHops [])) := by
      rw [hstart, hleft, below_succ, emits_append]
      refine @runs_frame walk edges a [] _ _ left (by simp [hleft, Nat.add_comm]) _ _ ?_
      exact .done rfl
    exact ⟨fun h => h.unique hruns, fun h => h ▸ hruns⟩

end VarLengthWalk

/-! ### Paths of a graph -/

section Graph

variable {g : InMemoryGraph} {types : List String} {direction : Direction}

/-- A relationship of an allowed type, from one node to another in an allowed direction. -/
def Hop (g : InMemoryGraph) (types : List String) (direction : Direction) (a : NodeId)
    (edge : RelationshipId × NodeId) : Prop :=
  direction ≠ .left ∧ Edge g types a edge.1 edge.2 ∨
    direction ≠ .right ∧ Edge g types edge.2 edge.1 a

/-- Hops, one after another. -/
def IsPath (g : InMemoryGraph) (types : List String) (direction : Direction) : NodeId → Steps → Prop
  | _, [] => True
  | a, edge :: es => Hop g types direction a edge ∧ IsPath g types direction edge.2 es

theorem InMemoryGraph.Intact.mem_expandIds (h : g.Intact) {a : NodeId}
    {edge : RelationshipId × NodeId} :
    edge ∈ g.expandIds a direction types ↔ Hop g types direction a edge := by
  obtain ⟨e, b⟩ := edge
  have hdirected : (a, e, b) ∈ directedEdges g types direction ↔
      Hop g types direction a (e, b) := by
    rw [h.mem_directedEdges, Hop]
    constructor
    · rintro (hedge | ⟨hright, hedge, -⟩)
      · exact Or.inl hedge
      · exact Or.inr ⟨hright, hedge⟩
    · rintro (hedge | ⟨hright, hedge⟩)
      · exact Or.inl hedge
      · by_cases hloop : direction = .undirected ∧ b = a
        · obtain ⟨rfl, rfl⟩ := hloop
          exact Or.inl ⟨by decide, hedge⟩
        · exact Or.inr ⟨hright, hedge, hloop⟩
  rw [← hdirected, directedEdges, mem_flatMap]
  constructor
  · intro hmem
    refine ⟨a, ?_, mem_map.mpr ⟨(e, b), hmem, rfl⟩⟩
    rw [mem_allNodeIds]
    rw [expandIds] at hmem
    split at hmem
    next hnode => exact hasNodeAt_iff.mp hnode
    next => cases hmem
  · rintro ⟨a', -, hmem⟩
    obtain ⟨edge, hedge, heq⟩ := mem_map.mp hmem
    cases heq
    exact hedge

theorem isWalk_expandIds (h : g.Intact) {a : NodeId} {es : Steps} :
    IsWalk (fun v => g.expandIds v direction types) a es ↔ IsPath g types direction a es := by
  induction es generalizing a with
  | nil => exact Iff.rfl
  | cons edge es ih => exact and_congr h.mem_expandIds ih

/-- The paths of a pattern from a node: no relationship twice, a length in the range, and an end
at the bound node. -/
structure PatternPath (g : InMemoryGraph) (types : List String) (direction : Direction)
    (range : RangeLiteral) (boundDst : Option NodeId) (a : NodeId)
    (es : Steps) : Prop where
  isPath : IsPath g types direction a es
  nodup : (es.map fst).Nodup
  start_le : (resolveRange range).1 ≤ es.length
  le_stop : es.length ≤ (resolveRange range).2
  bound : ∀ dst, boundDst = some dst → dst = endpoint a es

theorem isTrail_followed {walk : VarLengthWalk} {edges : NodeId → Steps} {a : NodeId} {es : Steps} :
    IsTrail (walk.followed edges) a es ↔
      IsTrail edges a es ∧ es.all (fun edge => walk.relMatches edge.1) = true := by
  have hwalk : ∀ {a}, IsWalk (walk.followed edges) a es ↔
      IsWalk edges a es ∧ es.all (fun edge => walk.relMatches edge.1) = true := by
    induction es with
    | nil => simp [IsWalk]
    | cons edge es ih =>
      intro a
      rw [IsWalk, IsWalk, ih, VarLengthWalk.followed, mem_filter, all_cons, Bool.and_eq_true]
      tauto
  constructor
  · rintro ⟨h, hnodup⟩
    exact ⟨⟨(hwalk.mp h).1, hnodup⟩, (hwalk.mp h).2⟩
  · rintro ⟨⟨h, hnodup⟩, hall⟩
    exact ⟨hwalk.mpr ⟨h, hall⟩, hnodup⟩

/-- **Each search finds every path of the pattern once**: the buffered one unless they no longer
fit, the source always, and a walk those whose relationships and end match. -/
theorem varLength_trails (hg : InMemoryGraph.Reachable g) (types : List String)
    (direction : Direction) (range : RangeLiteral) (boundDst : Option NodeId) (a : NodeId) :
    let edges := fun v => g.expandIds v direction types
    let hops := resolveRange range
    ∃ trails : List (Steps), trails.Nodup ∧
      (∀ es, es ∈ trails ↔ PatternPath g types direction range boundDst a es) ∧
      (∀ bind, expandVarLen edges range bind boundDst a =
        if VAR_LENGTH_PATH_BUDGET < heldFrom edges hops.2 bind a 1 hops.2 then .error tooManyPaths
        else .ok (trails.map (resultOf bind a))) ∧
      (∀ bind out, SearchDrains edges hops.1 hops.2 bind boundDst a (startRow hops.1 a) out ↔
        out = trails.map (resultOf bind a)) ∧
      ∀ relsBound relMatches nodeMatches, ∃ walked : List (Steps),
        walked.Perm (trails.filter fun es => es.all (fun edge => relMatches edge.1) &&
          relsBound.all (· == es.map fst) && nodeMatches (endpoint a es)) ∧
        ∀ out, VarLengthWalk.Gives ⟨hops.1, hops.2, boundDst, relsBound, relMatches, nodeMatches⟩
          edges a out ↔ out = walked.map (resultOf true a) := by
  intro edges hops
  have hintact := hg.intact
  have hedges : ∀ v, (edges v).Nodup := fun v => hintact.nodup_expandIds
  have hfilter : ∀ bind, ((levels edges a hops.1 hops.2).map (resultOf bind a)).filter
      (fun result => boundDst.all (· == result.dstNodeId)) =
      ((levels edges a hops.1 hops.2).filter fun es =>
        boundDst.all (· == endpoint a es)).map (resultOf bind a) := by
    intro bind
    rw [filter_map]
    rfl
  refine ⟨(levels edges a hops.1 hops.2).filter fun es => boundDst.all (· == endpoint a es),
    (nodup_levels hedges _ _).filter _, ?_, ?_, ?_, ?_⟩
  · intro es
    rw [mem_filter, mem_levels]
    constructor
    · rintro ⟨⟨htrail, hlo, hhi⟩, hbound⟩
      refine ⟨(isWalk_expandIds hintact).mp htrail.isWalk, htrail.nodup, hlo, hhi, ?_⟩
      rintro dst rfl
      simpa using hbound
    · rintro ⟨hpath, hnodup, hlo, hhi, hbound⟩
      refine ⟨⟨⟨(isWalk_expandIds hintact).mpr hpath, hnodup⟩, hlo, hhi⟩, ?_⟩
      cases boundDst with
      | none => rfl
      | some dst => simpa using hbound dst rfl
  · intro bind
    rw [expandVarLen, variableLengthExpand_eq, ← hfilter]
    split <;> rfl
  · intro bind out
    have hdrains := @search_drains edges hops.1 hops.2 bind boundDst a
    rw [hfilter] at hdrains
    exact ⟨fun h => h.unique hdrains, fun h => h ▸ hdrains⟩
  · intro relsBound relMatches nodeMatches
    set walk : VarLengthWalk := ⟨hops.1, hops.2, boundDst, relsBound, relMatches, nodeMatches⟩
    refine ⟨(below (walk.followed edges) a hops.2 []).filter (walk.accepts a), ?_,
      fun out => VarLengthWalk.gives_iff⟩
    have hempty : IsTrail (walk.followed edges) a [] := ⟨trivial, nodup_nil⟩
    have hfollowed : ∀ v, (walk.followed edges v).Nodup := fun v => (hedges v).filter _
    refine (perm_ext_iff_of_nodup ((nodup_below hfollowed hempty _).filter _)
      (((nodup_levels hedges _ _).filter _).filter _)).mpr fun es => ?_
    simp only [mem_filter, mem_below hempty, mem_levels, isTrail_followed, VarLengthWalk.accepts,
      Bool.and_eq_true, decide_eq_true_iff, nil_prefix, true_and, length_nil, Nat.zero_add, walk]
    tauto

/-- `n` loops at one node. -/
def selfLoops : ℕ → InMemoryGraph
  | 0 => (InMemoryGraph.new.mutate (.tryCreateNode [] .empty)).1
  | n + 1 => ((selfLoops n).mutate (.createRelationship 0 0 "R" .empty)).1

theorem selfLoops_reachable (n : ℕ) : InMemoryGraph.Reachable (selfLoops n) := by
  induction n with
  | zero => exact .mutate _ .new
  | succ n ih => exact .mutate _ ih

theorem isWalk_loops {edges : NodeId → Steps} {es : Steps} {a : NodeId}
    (h : ∀ edge ∈ es, edge ∈ edges a ∧ edge.2 = a) : IsWalk edges a es := by
  induction es with
  | nil => trivial
  | cons edge es ih =>
    obtain ⟨hmem, hloop⟩ := h edge mem_cons_self
    refine ⟨hmem, ?_⟩
    rw [hloop]
    exact ih fun e he => h e (mem_cons_of_mem _ he)

/-- The source finds every path of `(n)-[r*0..2]-()` at a node with two loops. -/
theorem loops_found : ∃ trails : List Steps, trails.Nodup ∧
    (∀ es, es ∈ trails ↔ PatternPath (selfLoops 2) [] .undirected ⟨some 0, some 2⟩ none 0 es) ∧
    SearchDrains (fun v => (selfLoops 2).expandIds v .undirected []) 0 2 true none 0 (startRow 0 0)
      (trails.map (resultOf true 0)) := by
  obtain ⟨trails, hnodup, hmem, -, hdrains, -⟩ :=
    varLength_trails (selfLoops_reachable 2) [] .undirected ⟨some 0, some 2⟩ none 0
  exact ⟨trails, hnodup, hmem, (hdrains true _).mpr rfl⟩

/-- A search does not find the path along all the loops of a node that has more of them than
it steps. -/
theorem loops_beyond {g : InMemoryGraph} (hreachable : InMemoryGraph.Reachable g) {n : ℕ}
    {range? : RangeLiteral} (hbound : (resolveRange range?).2 < n)
    (hloops : g.expandIds 0 .right [] = (range n).map (fun r => (r, 0))) :
    ∃ es, IsPath g [] .right 0 es ∧ (es.map fst).Nodup ∧ es.length = n ∧
      ∀ out, SearchDrains (fun v => g.expandIds v .right []) (resolveRange range?).1
          (resolveRange range?).2 true none 0 (startRow (resolveRange range?).1 0) out →
        resultOf true 0 es ∉ out := by
  refine ⟨(range n).map (fun r => (r, 0)), ?_, ?_, by rw [length_map, length_range], ?_⟩
  · refine (isWalk_expandIds hreachable.intact).mp (isWalk_loops fun edge hedge => ⟨?_, ?_⟩)
    · rw [hloops]
      exact hedge
    · obtain ⟨r, -, rfl⟩ := mem_map.mp hedge
      rfl
  · rw [map_map]
    exact nodup_range.map fun _ _ h => h
  · intro out hout hmem
    rw [hout.unique search_drains, mem_filter, mem_map] at hmem
    obtain ⟨⟨es, hes, hsame⟩, -⟩ := hmem
    have hlength := congrArg (fun result => result.relIds.length) hsame
    have hshort := (mem_levels.mp hes).2.2
    simp only [resultOf, if_true, length_map, length_range] at hlength
    omega

/-- `(n)-[r*]->()` does not find the path along 101 loops, though `*` names no upper bound. -/
theorem loops_not_found : InMemoryGraph.Reachable (selfLoops 101) ∧
    ∃ es, IsPath (selfLoops 101) [] .right 0 es ∧ (es.map fst).Nodup ∧ es.length = 101 ∧
      ∀ out, SearchDrains (fun v => (selfLoops 101).expandIds v .right [])
          (resolveRange ⟨none, none⟩).1 (resolveRange ⟨none, none⟩).2 true none 0
          (startRow (resolveRange ⟨none, none⟩).1 0) out →
        resultOf true 0 es ∉ out :=
  ⟨selfLoops_reachable 101, loops_beyond (selfLoops_reachable 101) (by decide) (by decide +kernel)⟩

end Graph

end LoraDb
