import LoraDb.Leaf

/-!
# The Record Slab

Records by slot, in leaves under interior nodes under a root: all of them cells behind
counted pointers, so that a clone of a slab shares everything and a write copies only what
is shared on its way: the root, one interior node, one leaf and the one segment it lands
in. A world is the heap and every handle on a slab that is alive.

A leaf position without records may point at `EMPTY_LEAF`, the one leaf every empty position
shares.

## Main definitions

* `World.set`, `World.remove`, `World.growTo`, `World.putLeaves`: the writes to one handle.
* `World.get`, `World.contains`, `World.iterFrom`, `World.slotsFrom`: its reads.
* `World.run`: a sequence of operations on the handles, clones and drops among them.
-/

namespace LoraDb

namespace Slab

open ByteCodec Shared

/-! ### Building leaves -/

/-- Records in whole leaves, built apart from any slab: the leaves, newest first, and the
segment of the newest one that is being staged. -/
structure BuiltLeaves where
  leaves : List (ℕ × Leaf)
  staging : Option (ℕ × ℕ)
  stage : Bytes

namespace BuiltLeaves

def empty : BuiltLeaves := ⟨[], none, []⟩

variable (b : BuiltLeaves) (bufs : List Bytes)

/-- Give the staged segment its buffer. -/
def flush : List Bytes × BuiltLeaves :=
  match b.staging with
  | none => (bufs, b)
  | some (_, seg) =>
    if b.stage = [] then (bufs, { b with staging := none })
    else
      match b.leaves with
      | [] => (bufs, { b with staging := none })
      | (l, leaf) :: older =>
        (bufs ++ [b.stage], {
          leaves := (l, { leaf with
            segments := leaf.segments.set seg
              ⟨some bufs.length, b.stage.length % 2 ^ 32, 0⟩ }) :: older
          staging := none
          stage := [] })

/-- Stage a record in the newest leaf. -/
def file (slot : ℕ) (bytes : Bytes) : BuiltLeaves :=
  match b.leaves with
  | [] => b
  | (l, leaf) :: older =>
    if LARGE_MIN ≤ bytes.length then
      { b with
        leaves := (l, Leaf.pushLoose { leaf with live := leaf.live + 1 } slot bytes) :: older }
    else
      { b with
        leaves := (l, { leaf with
          offsets := leaf.offsets.set slot (b.stage.length % 2 ^ 32)
          live := leaf.live + 1 }) :: older
        stage := b.stage ++ entry bytes }

/-- Add a record at slot `i`, above every slot pushed before. -/
def push (i : ℕ) (bytes : Bytes) : List Bytes × BuiltLeaves :=
  let pos := i / CHUNK
  let slot := i % CHUNK
  let seg := segmentOf slot
  let (bufs, b) :=
    if b.staging = some (pos, seg) then (bufs, b)
    else
      let (bufs, b) := b.flush bufs
      (bufs, { b with staging := some (pos, seg) })
  let b :=
    if b.leaves.head?.map Prod.fst = some pos then b
    else { b with leaves := (pos, .new) :: b.leaves }
  (bufs, b.file slot bytes)

/-- The leaves in order, every segment given its buffer. -/
def intoLeaves : List Bytes × List (ℕ × Leaf) :=
  let (bufs, b) := b.flush bufs
  (bufs, b.leaves.reverse)

/-- The leaves built of `records`. -/
def build (records : List (ℕ × Bytes)) : List Bytes × List (ℕ × Leaf) :=
  let (bufs, b) := records.foldl (fun st record => st.2.push st.1 record.1 record.2) (bufs, empty)
  b.intoLeaves bufs

end BuiltLeaves

/-! ### The heap -/

structure Heap where
  roots : List (List Addr)
  nodes : List (List Addr)
  leaves : List Leaf
  bufs : List Bytes

/-- The one leaf every **empty** leaf position points at. -/
def EMPTY_LEAF : Addr := 0

/-- A slab, as its owner holds it. -/
structure Handle where
  root : Addr
  len : ℕ

namespace Heap

variable (H : Heap) (root : Addr)

/-- The interior nodes under a root. -/
def rootCell : List Addr := (read H.roots root).getD []

/-- The leaves under an interior node. -/
def nodeCell (node : Addr) : List Addr := (read H.nodes node).getD []

/-- Leaf number `l` under a root. -/
def leafAt (l : ℕ) : Option Addr :=
  (H.rootCell root)[l / FANOUT]?.bind fun node => (H.nodeCell node)[l % FANOUT]?

end Heap

/-- The heap and every handle alive: a dropped one leaves its place empty. -/
structure World where
  heap : Heap
  handles : List (Option Handle)

namespace World

/-- One slab, of no slots. -/
def new : World where
  heap := { roots := [[]], nodes := [], leaves := [.new], bufs := [] }
  handles := [some ⟨0, 0⟩]

variable (W : World) (k i : ℕ)

def handle : Option Handle := W.handles[k]?.join

/-! ### Who points to what -/

def liveRoots : List Addr := W.handles.filterMap fun h => h.map Handle.root

def rootCount (root : Addr) : ℕ := W.liveRoots.count root

def nodeCount (node : Addr) : ℕ := strongCount W.liveRoots.dedup W.heap.rootCell node

def liveNodes : List Addr := (W.liveRoots.flatMap W.heap.rootCell).dedup

/-- The empty leaf has a pointer to it besides. -/
def leafCount (leaf : Addr) : ℕ :=
  strongCount W.liveNodes W.heap.nodeCell leaf + if leaf = EMPTY_LEAF then 1 else 0

def liveLeaves : List Addr := (W.liveNodes.flatMap W.heap.nodeCell).dedup

/-- The buffers that leaves other than `leaf` point to. -/
def othersThan (leaf : Addr) : List Addr :=
  (W.liveLeaves.filter fun other => other != leaf).flatMap fun other =>
    ((read W.heap.leaves other).map Leaf.pointers).getD []

/-! ### Reads -/

/-- The leaf holding slot `i`. -/
def leaf (h : Handle) : Option Leaf :=
  (W.heap.leafAt h.root (i / CHUNK)).bind (read W.heap.leaves)

def get : Option Bytes :=
  (W.handle k).bind fun h =>
    if i < h.len then (W.leaf i h).bind fun leaf => leaf.get W.heap.bufs (i % CHUNK) else none

def contains : Bool :=
  (W.handle k).any fun h =>
    decide (i < h.len) && (W.leaf i h).any fun leaf => leaf.contains (i % CHUNK)

/-- Each leaf from the one holding slot `start` on, with the range of its slots. The empty leaf
is told by its address. -/
def leavesFrom (h : Handle) (start : ℕ) : List (ℕ × Leaf × List ℕ) :=
  let first := start / CHUNK
  (List.range' first ((h.len + CHUNK - 1) / CHUNK - first)).filterMap fun l =>
    match W.heap.leafAt h.root l with
    | none => none
    | some a =>
      if a = EMPTY_LEAF then none
      else
        let base := l * CHUNK
        let low := if l = first then start % CHUNK else 0
        let high := min (h.len - base) CHUNK
        (read W.heap.leaves a).map fun leaf => (base, leaf, List.range' low (high - low))

/-- The records from slot `start` on, in slot order. -/
def iterFrom (start : ℕ) : List (ℕ × Bytes) :=
  match W.handle k with
  | none => []
  | some h =>
    (W.leavesFrom h start).flatMap fun part =>
      part.2.2.filterMap fun s =>
        (part.2.1.get W.heap.bufs s).map fun bytes => (part.1 + s, bytes)

/-- The slots from `start` on that hold a record, in order. -/
def slotsFrom (start : ℕ) : List ℕ :=
  match W.handle k with
  | none => []
  | some h =>
    (W.leavesFrom h start).flatMap fun part =>
      (part.2.2.filter part.2.1.contains).map fun s => part.1 + s

/-! ### The way to a leaf -/

/-- The root of a handle, copied first if a clone shares it. -/
def rootMut : Option (World × Addr) := do
  let h ← W.handle k
  let (roots, root) ← makeMut W.heap.roots (W.rootCount h.root) h.root
  some ({
    heap := { W.heap with roots }
    handles := W.handles.set k (some { h with root }) }, root)

/-- The interior node over leaf number `l`, copied first if a clone shares it. -/
def nodeMut (l : ℕ) : Option (World × Addr) := do
  let (W, root) ← W.rootMut k
  let node ← (W.heap.rootCell root)[l / FANOUT]?
  let (nodes, node) ← makeMut W.heap.nodes (W.nodeCount node) node
  let cell := (W.heap.rootCell root).set (l / FANOUT) node
  some ({ W with heap := { W.heap with nodes, roots := W.heap.roots.set root cell } }, node)

/-- Point leaf position `l` under the node at another leaf. -/
def place (node : Addr) (l : ℕ) (leaf : Addr) : World :=
  let cell := (W.heap.nodeCell node).set (l % FANOUT) leaf
  { W with heap := { W.heap with nodes := W.heap.nodes.set node cell } }

/-- Leaf number `l`, copied first if a clone shares it. -/
def leafMut (l : ℕ) : Option (World × Addr) := do
  let (W, node) ← W.nodeMut k l
  let leaf ← (W.heap.nodeCell node)[l % FANOUT]?
  let (leaves, leaf) ← makeMut W.heap.leaves (W.leafCount leaf) leaf
  let W : World := { W with heap := { W.heap with leaves } }
  some (W.place node l leaf, leaf)

/-- Write a leaf back, with the buffers. -/
def store (a : Addr) (held : Held) : World :=
  { W with heap := { W.heap with leaves := W.heap.leaves.set a held.leaf, bufs := held.bufs } }

/-! ### Writes -/

/-- Store `bytes` in slot `i`, which is below the length. Returns whether it was empty. -/
def set (bytes : Bytes) : Option (World × Bool) := do
  let h ← W.handle k
  if h.len ≤ i then none
  else
    let (W, a) ← W.leafMut k (i / CHUNK)
    let leaf ← read W.heap.leaves a
    let held ← Held.set (W.othersThan a) ⟨W.heap.bufs, leaf⟩ (i % CHUNK) bytes
    some (W.store a held, !leaf.contains (i % CHUNK))

/-- Empty slot `i`. Returns whether it held a record. -/
def remove : Option (World × Bool) :=
  if W.contains k i then do
    let (W, a) ← W.leafMut k (i / CHUNK)
    let leaf ← read W.heap.leaves a
    let (held, removed) ← Held.remove ⟨W.heap.bufs, leaf⟩ (i % CHUNK)
    let W := W.store a held
    if held.leaf.live = 0 then
      let (W, node) ← W.nodeMut k (i / CHUNK)
      some (W.place node (i / CHUNK) EMPTY_LEAF, removed)
    else some (W, removed)
  else some (W, false)

/-- Add one leaf position at the end. -/
def growLeaf : Option World := do
  let h ← W.handle k
  let leaves := (h.len + CHUNK - 1) / CHUNK
  let first := leaves * CHUNK
  if first % (CHUNK * FANOUT) = 0 then
    -- a new root over the old nodes and a new one
    let cell := W.heap.rootCell h.root ++ [W.heap.nodes.length]
    some {
      heap := { W.heap with
        roots := W.heap.roots ++ [cell]
        nodes := W.heap.nodes ++ [[EMPTY_LEAF]] }
      handles := W.handles.set k (some ⟨W.heap.roots.length, first + 1⟩) }
  else
    let (W, root) ← W.rootMut k
    let cell := W.heap.rootCell root
    let last ← cell[cell.length - 1]?
    some {
      heap := { W.heap with
        roots := W.heap.roots.set root (cell.set (cell.length - 1) W.heap.nodes.length)
        nodes := W.heap.nodes ++ [W.heap.nodeCell last ++ [EMPTY_LEAF]] }
      handles := W.handles.set k (some ⟨root, first + 1⟩) }

/-- Add `n` leaf positions. -/
def growLeaves : ℕ → World → Option World
  | 0, W => some W
  | n + 1, W => (W.growLeaf k).bind (growLeaves n)

/-- Grow to `newLen` empty slots. Never shrinks. -/
def growTo (newLen : ℕ) : Option World := do
  let h ← W.handle k
  let W ← growLeaves k ((newLen + CHUNK - 1) / CHUNK - (h.len + CHUNK - 1) / CHUNK) W
  let h ← W.handle k
  some { W with handles := W.handles.set k (some { h with len := max h.len newLen }) }

/-- Store the records of a built leaf one by one, up to the first slot that held one.
`waiting` are the buffers the built leaves point to. -/
def putSlots (waiting : List Addr) (a : Addr) (leaf : Leaf) (first : ℕ) :
    List ℕ → World → ℕ → Option (World × Except ℕ ℕ)
  | [], W, stored => some (W, .ok stored)
  | s :: slots, W, stored =>
    match leaf.get W.heap.bufs s with
    | none => putSlots waiting a leaf first slots W stored
    | some bytes => do
      let target ← read W.heap.leaves a
      if target.contains s then some (W, .error (first + s))
      else
        let held ← Held.set (W.othersThan a ++ waiting) ⟨W.heap.bufs, target⟩ s bytes
        putSlots waiting a leaf first slots (W.store a held) (stored + 1)

/-- Store built leaves: a position without records takes its leaf. -/
def putBuilt : List (ℕ × Leaf) → World → ℕ → Option (World × Except ℕ ℕ)
  | [], W, stored => some (W, .ok stored)
  | (l, leaf) :: built, W, stored => do
    let h ← W.handle k
    if h.len ≤ l * CHUNK then none
    else
      let (W, node) ← W.nodeMut k l
      let a ← (W.heap.nodeCell node)[l % FANOUT]?
      let old ← read W.heap.leaves a
      if a = EMPTY_LEAF ∨ old.live = 0 then
        let W : World := { W with heap := { W.heap with leaves := W.heap.leaves ++ [leaf] } }
        putBuilt built (W.place node l (W.heap.leaves.length - 1)) (stored + leaf.live)
      else
        let (W, a) ← W.leafMut k l
        let waiting := ((l, leaf) :: built).flatMap fun entry => entry.2.pointers
        let (W, result) ← putSlots waiting a leaf (l * CHUNK) (List.range CHUNK) W stored
        match result with
        | .error slot => some (W, .error slot)
        | .ok stored => putBuilt built W stored

/-- Build leaves of `records`, and store them. Returns how many were stored, or the first slot
that already held one. -/
def putLeaves (records : List (ℕ × Bytes)) : Option (World × Except ℕ ℕ) :=
  let (bufs, built) := BuiltLeaves.build W.heap.bufs records
  putBuilt k built { W with heap := { W.heap with bufs } } 0

/-- Another handle on the same slab: it shares the root. -/
def clone : Option World := do
  let h ← W.handle k
  some { W with handles := W.handles ++ [some h] }

def drop : Option World := do
  let _ ← W.handle k
  some { W with handles := W.handles.set k none }

end World

/-! ### Runs -/

/-- An operation on the handle `k`. -/
inductive SlabOp
  | growTo (k newLen : ℕ)
  | set (k i : ℕ) (bytes : Bytes)
  | remove (k i : ℕ)
  | putLeaves (k : ℕ) (records : List (ℕ × Bytes))
  | clone (k : ℕ)
  | drop (k : ℕ)

/-- What an operation **returns**. -/
inductive Returned
  | nothing
  | flag (b : Bool)
  | put (stored : Except ℕ ℕ)

namespace World

/-- One operation; nothing where the code panics, or the handle is not alive. -/
def step (W : World) : SlabOp → Option (World × Returned)
  | .growTo k newLen => (W.growTo k newLen).map fun W => (W, .nothing)
  | .set k i bytes => (W.set k i bytes).map fun out => (out.1, .flag out.2)
  | .remove k i => if (W.handle k).isSome then (W.remove k i).map fun out => (out.1, .flag out.2)
    else none
  | .putLeaves k records => (W.putLeaves k records).map fun out => (out.1, .put out.2)
  | .clone k => (W.clone k).map fun W => (W, .nothing)
  | .drop k => (W.drop k).map fun W => (W, .nothing)

def run : List SlabOp → World → Option (World × List Returned)
  | [], W => some (W, [])
  | op :: ops, W => do
    let (W, returned) ← W.step op
    let (W, rest) ← run ops W
    some (W, returned :: rest)

end World

end Slab

end LoraDb
