import LoraDb.GreedySearch
import LoraDb.SortedMap

/-!
# The Vector Graph Index

A layered graph over stored vectors: a node of level `n` has a list of neighbours in each of
the layers `0` to `n`, and a query walks down from the entry point, greedily in each layer.

Three things are parameters, so that what is proved holds of every choice of them: the
similarity of two vectors, which may be undefined (`score`), the representation a vector is
stored in, which may refuse it (`quantize`; without quantization it is `some`), and the source
of levels (`sampleLevel`, the geometric distribution with its generator state). A search runs
with one step for each stored node, which is as many as it can take
(`GreedySearch.search_fuel`).
-/

open GreedySearch

namespace LoraDb

structure HnswParams where
  m : ℕ
  efConstruction : ℕ
  efSearch : ℕ

/-- One node of the graph; `neighbors` has a list for each layer `0..=level`. -/
structure HnswNode (V : Type) where
  vector : V
  level : ℕ
  neighbors : List (List ℕ)
deriving DecidableEq

/-- The nodes of a graph, by id. -/
abbrev HnswNodes (V : Type) := List (ℕ × HnswNode V)

/-- `G` is the state of the **level generator**. -/
structure HnswBackend (V G : Type) where
  params : HnswParams
  nodes : HnswNodes V
  entryPoint : Option ℕ
  maxLevel : ℕ
  rngState : G

namespace HnswNodes

variable {V : Type}

/-- Replace a node's list in one layer, if the node is stored; a layer above its level is
left out. -/
def setLinks (target layer : ℕ) (links : List ℕ) (nodes : HnswNodes V) : HnswNodes V :=
  match SortedMap.get? target nodes with
  | none => nodes
  | some node =>
    SortedMap.put target { node with neighbors := node.neighbors.set layer links } nodes

/-- A node's list in one layer, empty where there is none. -/
def linksAt (nodes : HnswNodes V) (layer id : ℕ) : List ℕ :=
  ((SortedMap.get? id nodes).bind fun node => node.neighbors[layer]?).getD []

/-- Strip `id` from the list of `nid`, if it is there. -/
def unlink (id layer : ℕ) (nodes : HnswNodes V) (nid : ℕ) : HnswNodes V :=
  if id ∈ nodes.linksAt layer nid then
    nodes.setLinks nid layer ((nodes.linksAt layer nid).filter (· ≠ id))
  else nodes

/-- The last of the nodes at the highest level. -/
def highest (nodes : HnswNodes V) : Option (ℕ × HnswNode V) :=
  nodes.foldl (fun best entry =>
    match best with
    | none => some entry
    | some b => if b.2.level ≤ entry.2.level then some entry else some b) none

end HnswNodes

namespace HnswBackend

variable {V G S : Type}

/-- A degree of at least two, whatever the options say. -/
def new (params : HnswParams) (rngState : G) : HnswBackend V G where
  params := { params with m := max params.m 2 }
  nodes := []
  entryPoint := none
  maxLevel := 0
  rngState

def mMax (b : HnswBackend V G) (layer : ℕ) : ℕ :=
  if layer = 0 then b.params.m * 2 else b.params.m

def withNodes (b : HnswBackend V G) (nodes : HnswNodes V) : HnswBackend V G := { b with nodes }

/-- Drop a node and the links back to it from the nodes that it lists. -/
def remove (b : HnswBackend V G) (id : ℕ) : HnswBackend V G :=
  match SortedMap.get? id b.nodes with
  | none => b
  | some node =>
    let nodes : HnswNodes V := node.neighbors.zipIdx.foldl
      (fun nodes (neighbors, layer) =>
        neighbors.foldl (HnswNodes.unlink id layer) nodes)
      (SortedMap.erase id b.nodes)
    if b.entryPoint = some id then
      match HnswNodes.highest nodes with
      | some (newId, new) =>
        { b with nodes, entryPoint := some newId, maxLevel := new.level }
      | none => { b with nodes, entryPoint := none, maxLevel := 0 }
    else b.withNodes nodes

section Search

variable [LinearOrder S] (score : V → V → Option S)

/-- Distance is similarity the other way round. -/
def dist (nodes : HnswNodes V) (query : V) (id : ℕ) : Option Sᵒᵈ :=
  (SortedMap.get? id nodes).bind fun node => (score query node.vector).map OrderDual.toDual

def greedySearchLayerAgainst (nodes : HnswNodes V) (query : V) (entry layer ef : ℕ) :
    List (Candidate Sᵒᵈ) :=
  search (dist score nodes query) (nodes.linksAt layer) ef (nodes.length + 1) entry

/-- The search for the neighbours of a node that is already stored. -/
def greedySearchLayer (nodes : HnswNodes V) (queryId entry layer ef : ℕ) : List (Candidate Sᵒᵈ) :=
  match SortedMap.get? queryId nodes with
  | none => []
  | some node => greedySearchLayerAgainst score nodes node.vector entry layer ef

def selectClosest (candidates : List (Candidate Sᵒᵈ)) (m : ℕ) : List (Candidate Sᵒᵈ) :=
  (candidates.insertionSort (· ≤ ·)).take m

/-- Link `target` to `source`, keeping the closest `mMax` of its neighbours. -/
def addBackLink (target layer source mMax : ℕ) (nodes : HnswNodes V) : HnswNodes V :=
  match SortedMap.get? target nodes with
  | none => nodes
  | some node =>
    if node.level < layer then nodes
    else
      let candidate id := (dist score nodes node.vector id).map fun d => Candidate.mk d id
      let current := ((nodes.linksAt layer target).filter (· ≠ source)).filterMap candidate
      let current := current ++ (candidate source).toList
      nodes.setLinks target layer ((selectClosest current mMax).map Candidate.id)

/-- Link a new node in one layer, both ways, and say where the next layer's search starts. -/
def linkLayer (id : ℕ) (b : HnswBackend V G) (nearest layer : ℕ) : HnswNodes V × ℕ :=
  let candidates := greedySearchLayer score b.nodes id nearest layer b.params.efConstruction
  let selected := selectClosest candidates b.params.m
  let nodes := b.nodes.setLinks id layer (selected.map Candidate.id)
  let nodes := selected.foldl (fun nodes c =>
    addBackLink score c.id layer id (b.mMax layer) nodes) nodes
  (nodes, (selected.head?.map Candidate.id).getD nearest)

/-- Walk down to the layer above `level`, one hop target a layer. -/
def zoom (nodes : HnswNodes V) (query : V) (level : ℕ) : ℕ → ℕ → ℕ
  | 0, nearest => nearest
  | layer + 1, nearest =>
    if layer + 1 ≤ level then nearest
    else zoom nodes query level layer
      (((greedySearchLayerAgainst score nodes query nearest (layer + 1) 1).head?.map
        Candidate.id).getD nearest)

/-- Link a new node in the layers below `layer`, from the top down. -/
def linkDown (id : ℕ) : ℕ → HnswBackend V G → ℕ → HnswBackend V G
  | 0, b, _ => b
  | layer + 1, b, nearest =>
    let (nodes, nearest) := linkLayer score id b nearest layer
    linkDown id layer (b.withNodes nodes) nearest

variable (quantize : V → Option V) (sampleLevel : G → ℕ × G)

/-- Store and link a vector; one stored under the same id goes first. -/
def insert (b : HnswBackend V G) (id : ℕ) (vector : V) : HnswBackend V G :=
  let b := if (SortedMap.get? id b.nodes).isSome then b.remove id else b
  match quantize vector with
  | none => b
  | some vector =>
    let (level, rngState) := sampleLevel b.rngState
    let node : HnswNode V := ⟨vector, level, List.replicate (level + 1) []⟩
    let b := { b with nodes := SortedMap.put id node b.nodes, rngState }
    match b.entryPoint with
    | none => { b with entryPoint := some id, maxLevel := level }
    | some entry =>
      let nearest := zoom score b.nodes vector level b.maxLevel entry
      let linked := linkDown score id (min level b.maxLevel + 1) b nearest
      if b.maxLevel < level then
        { linked with maxLevel := level, entryPoint := some id }
      else linked

/-- How many candidates a query collects: more of them when it has to filter. -/
def searchWidth (b : HnswBackend V G) (k : ℕ) (restricted : Bool) : ℕ :=
  let ef := max b.params.efSearch k
  if restricted then max (min (ef * 4) (2 ^ 64 - 1)) (k * 8 % 2 ^ 64) else ef

def query (b : HnswBackend V G) (query : V) (k : ℕ) (restrictTo : Option (List ℕ)) : List (ℕ × S) :=
  match b.entryPoint with
  | none => []
  | some entry =>
    if k = 0 ∨ b.nodes = [] then []
    else match quantize query with
      | none => []
      | some query =>
        let nearest := zoom score b.nodes query 0 b.maxLevel entry
        let candidates := greedySearchLayerAgainst score b.nodes query nearest 0
          (b.searchWidth k restrictTo.isSome)
        let filtered := match restrictTo with
          | none => candidates
          | some ids => candidates.filter fun c => c.id ∈ ids
        (filtered.take k).map fun c => (c.id, OrderDual.ofDual c.dist)

end Search

end HnswBackend

end LoraDb
