import LoraDb.Handles
import LoraDb.SortedRuns

/-!
# Bitmaps of Ids

The label and type indexes hold ids in blocks by their high bits. A block is a sorted array of
the low bits, or a bitmap once the array would outgrow it. Blocks are shared between clones and
copied before they are written, so a bitmap is its value.

## Main definitions

* `Block.insert`, `Block.remove`: the writes, and the change between the two forms.
* `BlockIter`, `IdBitmapIter`: the ids of a block, and of a bitmap, from some id on.
* `IdBitmap.insert`, `IdBitmap.remove`: the writes to a bitmap.
-/

namespace LoraDb

namespace Bitmap

/-- Ids per block: the low bits of an id address it within its block. -/
def BLOCK_SHIFT : ℕ := 16

/-- Bitmap words per block. -/
def WORDS : ℕ := (1 <<< BLOCK_SHIFT) / 64

/-- A block holding more ids than this is a bitmap. -/
def ARRAY_MAX : ℕ := 4096

/-- A bitmap block that falls below this many ids becomes an array again. -/
def ARRAY_MIN : ℕ := 2048

/-- The low bits of an id. -/
abbrev Low := Fin (2 ^ 16)

abbrev Bits := Vector (BitVec 64) WORDS

open List SortedRuns

/-- The word of a bitmap that holds a bit. -/
def wordOf (low : Low) : Fin WORDS := ⟨low.val >>> 6, by
  rw [Nat.shiftRight_eq_div_pow]
  exact Nat.div_lt_of_lt_mul low.isLt⟩

/-- The bit in its word. -/
def maskOf (low : Low) : BitVec 64 := 1#64 <<< (low.val &&& 63)

def split (id : ℕ) : ℕ × Low := (id >>> BLOCK_SHIFT, Fin.ofNat (2 ^ 16) id)

inductive Block
  /-- Low bits, ascending and distinct. -/
  | array (lows : List Low)
  | bits (words : Bits)

def binarySearch (lows : List Low) (low : Low) : Except ℕ ℕ := search (fun l => l) low lows

namespace Bits

def zeros : Bits := .replicate WORDS 0#64

def setBit (words : Bits) (low : Low) : Bits :=
  words.set (wordOf low) (words.get (wordOf low) ||| maskOf low) (wordOf low).isLt

def clearBit (words : Bits) (low : Low) : Bits :=
  words.set (wordOf low) (words.get (wordOf low) &&& ~~~maskOf low) (wordOf low).isLt

end Bits

/-! ### The ids of a block -/

/-- The low bits of one block's ids from some low bits on, ascending. -/
inductive BlockIter
  | array (lows : List Low)
  | bits (words : Bits) (word : Fin WORDS) (current : BitVec 64)

namespace BlockIter

def new (block : Block) (start : Low) : BlockIter :=
  match block with
  | .array lows => .array (lows.drop (partitionPoint (fun l => decide (l < start)) lows))
  | .bits words =>
    .bits words (wordOf start)
      (words.get (wordOf start) &&& (BitVec.allOnes 64 <<< (start.val &&& 63)))

/-- The first word from here that has a bit left. -/
def seek (words : Bits) (word : Fin WORDS) (current : BitVec 64) : Option (Fin WORDS × BitVec 64) :=
  if current = 0#64 then
    if h : word.val + 1 = WORDS then none
    else
      let word : Fin WORDS := ⟨word.val + 1, by omega⟩
      seek words word (words.get word)
  else some (word, current)
termination_by WORDS - word.val

/-- The next low bits. The iterator is not asked again once it is through. -/
def next : BlockIter → Option (ℕ × BlockIter)
  | .array [] => none
  | .array (low :: lows) => some (low.val, .array lows)
  | .bits words word current => do
    let (word, current) ← seek words word current
    let bit := current.ctz.toNat
    some (word.val <<< 6 ||| bit, .bits words word (current &&& (current - 1#64)))

/-- What is left, given fuel for all ids of a block. -/
def collect (it : BlockIter) : ℕ → List ℕ
  | 0 => []
  | fuel + 1 =>
    match it.next with
    | none => []
    | some (low, it) => low :: it.collect fuel

end BlockIter

namespace Block

/-- Where low bits are or go in an array, tried at the end first. -/
def place (lows : List Low) (low : Low) : Except ℕ ℕ :=
  match lows.getLast? with
  | some last => if last < low then .error lows.length else binarySearch lows low
  | none => .error 0

/-- Insert low bits; whether they were absent. `count` is the block's size before. -/
def insert (low : Low) (count : ℕ) : Block → Block × Bool
  | .array lows =>
    match place lows low with
    | .ok _ => (.array lows, false)
    | .error pos =>
      if count = ARRAY_MAX then (.bits ((lows.foldl Bits.setBit .zeros).setBit low), true)
      else (.array (lows.insertIdx pos low), true)
  | .bits words => (.bits (words.setBit low), words.get (wordOf low) &&& maskOf low == 0#64)

/-- Remove low bits; whether they were present. `count` is the block's size before. -/
def remove (low : Low) (count : ℕ) : Block → Block × Bool
  | .array lows =>
    match binarySearch lows low with
    | .ok pos => (.array (lows.eraseIdx pos), true)
    | .error _ => (.array lows, false)
  | .bits words =>
    if words.get (wordOf low) &&& maskOf low = 0#64 then (.bits words, false)
    else
      let words := words.clearBit low
      if count - 1 < ARRAY_MIN then
        let lows := (BlockIter.new (.bits words) 0).collect (2 ^ 16 + 1)
        (.array (lows.map (Fin.ofNat (2 ^ 16))), true)
      else (.bits words, true)

end Block

structure Entry where
  high : ℕ
  count : ℕ
  block : Block

namespace Entry

def empty (high : ℕ) : Entry := ⟨high, 0, .array []⟩

def contains (e : Entry) (low : Low) : Bool :=
  match e.block with
  | .array lows =>
    if lows.getLast?.any (fun last => decide (last < low)) then false
    else (binarySearch lows low).toOption.isSome
  | .bits words => words.get (wordOf low) &&& maskOf low != 0#64

end Entry

/-- Entries ascending by `high`, none of them empty, and the count of all ids. -/
structure IdBitmap where
  blocks : List Entry
  len : ℕ

/-- Ids of a bitmap in ascending order. -/
structure IdBitmapIter where
  rest : List Entry
  base : ℕ
  block : Option BlockIter

namespace IdBitmapIter

/-- The next id, from the open block or the first of the rest that has one. -/
def next (it : IdBitmapIter) : Option ℕ × IdBitmapIter :=
  match it.block with
  | none => (none, it)
  | some block =>
    match block.next with
    | some (low, block) => (some (it.base ||| low), { it with block := some block })
    | none =>
      match hrest : it.rest with
      | [] => (none, ⟨[], 0, none⟩)
      | entry :: rest => next ⟨rest, entry.high <<< BLOCK_SHIFT, some (.new entry.block 0)⟩
termination_by it.rest.length
decreasing_by simp [hrest]

/-- The answers to so many calls. -/
def pulls (it : IdBitmapIter) : ℕ → List (Option ℕ)
  | 0 => []
  | n + 1 => it.next.1 :: it.next.2.pulls n

end IdBitmapIter

namespace IdBitmap

def new : IdBitmap := ⟨[], 0⟩

/-- The entry with the high bits, tried at the end first, or where it would go. -/
def locate (blocks : List Entry) (high : ℕ) : Except ℕ ℕ :=
  match blocks.getLast? with
  | some last =>
    if last.high = high then .ok (blocks.length - 1)
    else if high < last.high then search Entry.high high blocks
    else .error blocks.length
  | none => .error blocks.length

/-- Insert an id; whether it was absent. -/
def insert (m : IdBitmap) (id : ℕ) : Option (IdBitmap × Bool) :=
  let (high, low) := split id
  let found := locate m.blocks high
  if (found.toOption.bind fun index => m.blocks[index]?).any (fun e => e.contains low) then
    some (m, false)
  else
    match found with
    | .ok index => put m.blocks index low
    | .error index => put (m.blocks.insertIdx index (.empty high)) index low
where
  /-- Into the entry at `index`, which lacks the low bits. -/
  put (blocks : List Entry) (index : ℕ) (low : Low) : Option (IdBitmap × Bool) := do
    let entry ← blocks[index]?
    let (block, inserted) := entry.block.insert low entry.count
    guard inserted
    some (⟨blocks.set index { entry with count := entry.count + 1, block }, m.len + 1⟩, true)

/-- Remove an id; whether it was present. -/
def remove (m : IdBitmap) (id : ℕ) : Option (IdBitmap × Bool) :=
  let (high, low) := split id
  match search Entry.high high m.blocks with
  | .error _ => some (m, false)
  | .ok index => do
    let entry ← m.blocks[index]?
    if entry.contains low then
      if entry.count = 1 then some (⟨m.blocks.eraseIdx index, m.len - 1⟩, true)
      else
        let (block, _) := entry.block.remove low entry.count
        some (⟨m.blocks.set index { entry with count := entry.count - 1, block }, m.len - 1⟩, true)
    else some (m, false)

/-- The ids from some id on. -/
def iterFrom (m : IdBitmap) (start : ℕ) : IdBitmapIter :=
  let (high, low) := split start
  match m.blocks.drop (partitionPoint (fun e => decide (e.high < high)) m.blocks) with
  | [] => ⟨[], 0, none⟩
  | first :: rest =>
    ⟨rest, first.high <<< BLOCK_SHIFT,
      some (.new first.block (if first.high = high then low else 0))⟩

def iter (m : IdBitmap) : IdBitmapIter := m.iterFrom 0

end IdBitmap

end Bitmap

end LoraDb
