import LoraDb.AdjacencyBytes

/-!
# Adjacency Allocations

The two lists of a node share one allocation: its header, with capacity and handle count in
one word, and its data, where the outgoing bytes grow up from the front and the incoming
ones down from the end.

## Main results

* `Holds`: what an allocation's data holds.
* `Holds.write`, `Holds.grow`, `Holds.copyWithCapacity`: an entry is added to a side, and a
  larger or another allocation holds the same.
* `Holds.cut`, `Holds.sweep`: one entry, or every entry of some relationships, leaves a side.
-/

open ByteCodec List

namespace LoraDb

namespace AdjBytes

/-! ### Allocations -/

def HEADER : ℕ := 12

/-- The low four bits that every capacity has. -/
def CAP_LOW : ℕ := (16 - HEADER % 16) % 16

/-- The largest capacity of an allocation's data. -/
def MAX_CAP : ℕ := (2 ^ 32 - 1) / 16 * 16 - HEADER

/-- The most handles one allocation can have. -/
def RC_MAX : ℕ := 15

/-- Capacity for `min` bytes, such that the allocation is a multiple of sixteen. -/
def capacityFor (min : ℕ) : ℕ := (HEADER + min + 15) / 16 * 16 - HEADER

/-- Capacity and handle count in one word: the capacity's low bits hold the count. -/
def pack (cap rc : ℕ) : ℕ := (cap - CAP_LOW) ||| rc

/-- One allocation: its header and its data. -/
structure Alloc where
  outLen : ℕ
  inLen : ℕ
  capRc : ℕ
  data : Bytes

namespace Alloc

def cap (a : Alloc) : ℕ := a.capRc / 16 * 16 + CAP_LOW

def rc (a : Alloc) : ℕ := a.capRc % 16

def used (a : Alloc) : ℕ := a.outLen + a.inLen

/-- The written bytes of a side. -/
def side (a : Alloc) : Side → Bytes
  | .out => a.data.take a.outLen
  | .into => (a.data.drop (a.cap - a.inLen)).take a.inLen

/-- A new allocation with empty lists; nothing reads the free space, which is zeros here. -/
def allocate (cap : ℕ) : Alloc := ⟨0, 0, pack cap 1, List.replicate cap 0⟩

/-- Copy bytes onto a place in the data. -/
def copyTo (data : Bytes) (dst : ℕ) (bytes : Bytes) : Bytes :=
  data.take dst ++ bytes ++ data.drop (dst + bytes.length)

/-- Copy `len` bytes of the data from `src` to `dst`; they may overlap. -/
def move (data : Bytes) (src dst len : ℕ) : Bytes := copyTo data dst ((data.drop src).take len)

/-- An unshared copy of both lists, with room for `min` bytes. -/
def copyWithCapacity (a : Alloc) (min : ℕ) : Alloc :=
  let out := a.side .out
  let inc := a.side .into
  let cap := capacityFor (max min (out.length + inc.length))
  let data := copyTo (copyTo (List.replicate cap 0) 0 out) (cap - inc.length) inc
  ⟨out.length, inc.length, pack cap 1, data⟩

/-- Enlarge the data to `cap` bytes and move the incoming entries to its new end. -/
def grow (a : Alloc) (cap : ℕ) : Alloc :=
  let data := a.data ++ List.replicate (cap - a.cap) 0
  ⟨a.outLen, a.inLen, pack cap 1, move data (a.cap - a.inLen) (cap - a.inLen) a.inLen⟩

/-- Write an encoded entry into the free space, which has room for it. -/
def write (a : Alloc) (on : Side) (entry : AdjEntry) : Alloc :=
  let bytes := encode entry (on == .into)
  match on with
  | .out =>
    { a with outLen := a.outLen + bytes.length, data := copyTo a.data a.outLen bytes }
  | .into =>
    let inLen := a.inLen + bytes.length
    { a with inLen, data := copyTo a.data (a.cap - inLen) bytes }

/-- Cut the entry between two positions of its side out of the list. -/
def cut (a : Alloc) (on : Side) (before after : ℕ) : Alloc :=
  match on with
  | .out =>
    { a with
      outLen := a.outLen - (after - before)
      data := move a.data after before (a.outLen - after) }
  | .into =>
    let base := a.cap - a.inLen
    { a with
      inLen := a.inLen - (before - after)
      data := move a.data base (base + (before - after)) after }

end Alloc

/-- The pass of `remove_all` over an outgoing list: kept entries move down to `write`. -/
def sweepOut (gone : AdjEntry → Bool) : ℕ → Bytes → ℕ → ℕ → ℕ → Bytes × ℕ × ℕ
  | 0, bytes, _, write, removed => (bytes, write, removed)
  | fuel + 1, bytes, read, write, removed =>
    if read < bytes.length then
      let n := entryLen (bytes.getD read 0)
      match next bytes false read with
      | none => (bytes, write, removed)
      | some (entry, _) =>
        if gone entry then sweepOut gone fuel bytes (read + n) write (removed + 1)
        else
          sweepOut gone fuel (Alloc.move bytes read write n) (read + n) (write + n) removed
    else (bytes, write, removed)

/-- The same over an incoming list, whose oldest entry is at the end. -/
def sweepIn (gone : AdjEntry → Bool) : ℕ → Bytes → ℕ → ℕ → ℕ → Bytes × ℕ × ℕ
  | 0, bytes, _, write, removed => (bytes, write, removed)
  | fuel + 1, bytes, read, write, removed =>
    if 0 < read then
      let n := entryLen (bytes.getD (read - 1) 0)
      match next bytes true read with
      | none => (bytes, write, removed)
      | some (entry, _) =>
        if gone entry then sweepIn gone fuel bytes (read - n) write (removed + 1)
        else
          sweepIn gone fuel (Alloc.move bytes (read - n) (write - n) n) (read - n) (write - n)
            removed
    else (bytes, write, removed)

/-- Sweep a side from `first` on; says how many entries went. -/
def Alloc.sweep (a : Alloc) (on : Side) (gone : AdjEntry → Bool) (first : ℕ) : Alloc × ℕ :=
  match on with
  | .out =>
    let bytes := a.side .out
    let (bytes, write, removed) := sweepOut gone (bytes.length + 1) bytes first first 0
    ({ a with outLen := write, data := Alloc.copyTo a.data 0 bytes }, removed)
  | .into =>
    let bytes := a.side .into
    let (bytes, write, removed) := sweepIn gone (bytes.length + 1) bytes first first 0
    ({ a with
        inLen := a.inLen - write
        data := Alloc.copyTo a.data (a.cap - a.inLen) bytes }, removed)

/-! ### The word of the header -/

theorem CAP_LOW_eq : CAP_LOW = 4 := by decide

theorem HEADER_eq : HEADER = 12 := by decide

theorem MAX_CAP_eq : MAX_CAP = 4294967268 := by decide

theorem le_capacityFor (n : ℕ) : n ≤ capacityFor n := by
  rw [capacityFor, HEADER_eq]
  omega

theorem capacityFor_le {n : ℕ} (h : n ≤ MAX_CAP) : capacityFor n ≤ MAX_CAP := by
  rw [MAX_CAP_eq] at *
  rw [capacityFor, HEADER_eq]
  omega

/-- Every capacity has the same low bits. -/
theorem capacityFor_low (n : ℕ) : capacityFor n % 16 = CAP_LOW := by
  rw [capacityFor, HEADER_eq, CAP_LOW_eq]
  omega

theorem pack_eq {cap rc : ℕ} (hcap : cap % 16 = CAP_LOW) (hrc : rc < 16) :
    pack cap rc = 16 * (cap / 16) + rc := by
  have hmul : cap - CAP_LOW = 2 ^ 4 * (cap / 16) := by
    rw [CAP_LOW_eq] at *
    omega
  rw [pack, hmul, ← Nat.two_pow_add_eq_or_of_lt (by omega)]

/-- Capacity and count are read back from the word they are packed into. -/
theorem pack_cap {cap rc : ℕ} (hcap : cap % 16 = CAP_LOW) (hrc : rc < 16) :
    pack cap rc / 16 * 16 + CAP_LOW = cap := by
  rw [pack_eq hcap hrc]
  rw [CAP_LOW_eq] at *
  omega

theorem pack_rc {cap rc : ℕ} (hcap : cap % 16 = CAP_LOW) (hrc : rc < 16) :
    pack cap rc % 16 = rc := by
  rw [pack_eq hcap hrc]
  omega

/-! ### Copying bytes -/

/-- Copying onto the front of a stretch of bytes. -/
theorem copyTo_front (xs old ys : Bytes) {bytes : Bytes} {dst : ℕ} (hdst : dst = xs.length)
    (hlen : bytes.length ≤ old.length) :
    Alloc.copyTo (xs ++ (old ++ ys)) dst bytes =
      xs ++ (bytes ++ (old.drop bytes.length ++ ys)) := by
  subst hdst
  have htake : (xs ++ (old ++ ys)).take xs.length = xs := take_left
  have hdrop : (xs ++ (old ++ ys)).drop (xs.length + bytes.length) =
      old.drop bytes.length ++ ys := by
    rw [drop_append, drop_eq_nil_of_le (by omega), nil_append, Nat.add_sub_cancel_left,
      drop_append_of_le_length hlen]
  rw [Alloc.copyTo, htake, hdrop, append_assoc]

/-- Copying onto the end of a stretch of bytes. -/
theorem copyTo_back (xs old ys : Bytes) {bytes : Bytes} {dst : ℕ}
    (hdst : dst + bytes.length = xs.length + old.length) (hlen : bytes.length ≤ old.length) :
    Alloc.copyTo (xs ++ (old ++ ys)) dst bytes =
      xs ++ (old.take (old.length - bytes.length) ++ (bytes ++ ys)) := by
  obtain ⟨front, back, rfl, hback⟩ : ∃ front back, old = front ++ back ∧
      back.length = bytes.length :=
    ⟨old.take (old.length - bytes.length), old.drop (old.length - bytes.length),
      (take_append_drop _ _).symm, by rw [length_drop]; omega⟩
  have hfront : (front ++ back).length - bytes.length = front.length := by
    rw [length_append]
    omega
  have hdst' : dst = (xs ++ front).length := by
    simp only [length_append] at hdst ⊢
    omega
  have hcopy := copyTo_front (xs ++ front) back ys hdst' hback.ge
  rw [drop_eq_nil_of_le hback.le, nil_append] at hcopy
  rw [hfront, take_left]
  simpa only [append_assoc] using hcopy

/-! ### What an allocation holds -/

/-- The outgoing bytes at its front and the incoming ones at its end. -/
structure Holds (a : Alloc) (out into : Bytes) : Prop where
  bytes : ∃ free, a.data = out ++ (free ++ into)
  outLen : a.outLen = out.length
  inLen : a.inLen = into.length
  cap : a.data.length = a.cap
  bound : a.cap ≤ MAX_CAP

namespace Holds

variable {a : Alloc} {out into : Bytes}

theorem used_le (h : Holds a out into) : out.length + into.length ≤ a.cap := by
  obtain ⟨free, hdata⟩ := h.bytes
  have hcap := h.cap
  rw [hdata] at hcap
  simp only [length_append] at hcap
  omega

theorem used_eq (h : Holds a out into) : a.used = out.length + into.length := by
  rw [Alloc.used, h.outLen, h.inLen]

theorem side_out (h : Holds a out into) : a.side .out = out := by
  obtain ⟨free, hdata⟩ := h.bytes
  rw [Alloc.side, hdata, h.outLen, take_left]

theorem side_into (h : Holds a out into) : a.side .into = into := by
  obtain ⟨free, hdata⟩ := h.bytes
  have hpos : a.cap - a.inLen = (out ++ free).length := by
    rw [← h.cap, h.inLen, hdata]
    simp only [length_append]
    omega
  rw [Alloc.side, hpos, hdata, ← append_assoc, drop_left, h.inLen, take_length]

/-- A new allocation holds nothing. -/
theorem allocate {cap : ℕ} (hlow : cap % 16 = CAP_LOW) (hcap : cap ≤ MAX_CAP) :
    Holds (Alloc.allocate cap) [] [] ∧ (Alloc.allocate cap).cap = cap ∧
      (Alloc.allocate cap).rc = 1 := by
  have heq : (Alloc.allocate cap).cap = cap := pack_cap hlow (by omega)
  refine ⟨⟨⟨replicate cap 0, by simp [Alloc.allocate]⟩, rfl, rfl, ?_, heq.trans_le hcap⟩, heq,
    pack_rc hlow (by omega)⟩
  rw [heq]
  exact length_replicate

/-- A copy has room for what was asked for, one handle, and holds the same. -/
theorem copyWithCapacity (h : Holds a out into) {min : ℕ} (hmin : min ≤ MAX_CAP) :
    Holds (a.copyWithCapacity min) out into ∧ min ≤ (a.copyWithCapacity min).cap ∧
      (a.copyWithCapacity min).rc = 1 := by
  have hused := h.used_le
  have hbound := h.bound
  let cap := capacityFor (max min (out.length + into.length))
  have hle : max min (out.length + into.length) ≤ cap := le_capacityFor _
  have hlow : cap % 16 = CAP_LOW := capacityFor_low _
  have hcap : (a.copyWithCapacity min).cap = cap := by
    rw [Alloc.copyWithCapacity, h.side_out, h.side_into]
    exact pack_cap hlow (by omega)
  have hfirst : Alloc.copyTo (replicate cap 0) 0 out = out ++ replicate (cap - out.length) 0 := by
    have hroom : out.length ≤ (replicate cap (0 : UInt8)).length := by
      rw [length_replicate]
      omega
    have hcopy := copyTo_front [] (replicate cap 0) [] rfl hroom
    simpa using hcopy
  have hsecond : (a.copyWithCapacity min).data =
      out ++ ((replicate (cap - out.length) 0).take (cap - out.length - into.length) ++ into) := by
    have hdst : cap - into.length + into.length =
        out.length + (replicate (cap - out.length) (0 : UInt8)).length := by
      rw [length_replicate]
      omega
    have hroom : into.length ≤ (replicate (cap - out.length) (0 : UInt8)).length := by
      rw [length_replicate]
      omega
    have hcopy := copyTo_back out (replicate (cap - out.length) 0) [] hdst hroom
    rw [Alloc.copyWithCapacity, h.side_out, h.side_into]
    simp only [append_nil, length_replicate] at hcopy
    exact (congrArg (Alloc.copyTo · _ _) hfirst).trans hcopy
  refine ⟨⟨⟨_, hsecond⟩, ?_, ?_, ?_, ?_⟩, ?_, ?_⟩
  · rw [Alloc.copyWithCapacity, h.side_out]
  · rw [Alloc.copyWithCapacity, h.side_into]
  · rw [hsecond, hcap]
    simp only [length_append, length_take, length_replicate]
    omega
  · rw [hcap]
    exact capacityFor_le (by omega)
  · rw [hcap]
    omega
  · rw [Alloc.copyWithCapacity, h.side_out, h.side_into]
    exact pack_rc hlow (by omega)

/-- A grown allocation holds the same, its incoming bytes at the new end. -/
theorem grow (h : Holds a out into) {cap : ℕ} (hlow : cap % 16 = CAP_LOW)
    (hle : a.cap ≤ cap) (hbound : cap ≤ MAX_CAP) :
    Holds (a.grow cap) out into ∧ (a.grow cap).cap = cap ∧ (a.grow cap).rc = 1 := by
  have hcap : (a.grow cap).cap = cap := pack_cap hlow (by omega)
  have hused := h.used_le
  obtain ⟨free, hdata⟩ := h.bytes
  have hlen := h.cap
  rw [hdata] at hlen
  simp only [length_append] at hlen
  let zeros : Bytes := replicate (cap - a.cap) 0
  have hzeros : zeros.length = cap - a.cap := length_replicate
  have hmoved : ((a.data ++ zeros).drop (a.cap - a.inLen)).take a.inLen = into := by
    have hpos : a.cap - a.inLen = (out ++ free).length := by
      rw [h.inLen, length_append]
      omega
    have hsplit : a.data ++ zeros = (out ++ free) ++ (into ++ zeros) := by
      rw [hdata]
      simp only [append_assoc]
    rw [hpos, hsplit, drop_left, h.inLen, take_left]
  have hgrown : ∃ free', (a.grow cap).data = out ++ (free' ++ into) := by
    have hdst : cap - a.inLen + into.length = out.length + (free ++ into ++ zeros).length := by
      rw [h.inLen]
      simp only [length_append, hzeros]
      omega
    have hroom : into.length ≤ (free ++ into ++ zeros).length := by
      simp only [length_append]
      omega
    have hcopy := copyTo_back out (free ++ into ++ zeros) [] hdst hroom
    rw [append_nil, append_nil] at hcopy
    refine ⟨_, Eq.trans ?_ hcopy⟩
    change Alloc.move (a.data ++ zeros) _ _ _ = _
    rw [Alloc.move, hmoved, hdata]
    simp only [append_assoc]
  refine ⟨⟨hgrown, h.outLen, h.inLen, ?_, hcap.trans_le hbound⟩, hcap, pack_rc hlow (by omega)⟩
  change (Alloc.move (a.data ++ zeros) _ _ _).length = _
  rw [hcap, Alloc.move, hmoved, Alloc.copyTo, hdata, h.inLen]
  simp only [length_append, length_take, length_drop, hzeros]
  omega

/-! ### Adding an entry -/

variable {entry : AdjEntry}

theorem write_out (h : Holds a out into)
    (hroom : out.length + into.length + (encode entry false).length ≤ a.cap) :
    Holds (a.write .out entry) (out ++ encode entry false) into := by
  obtain ⟨free, hdata⟩ := h.bytes
  have hlen := h.cap
  rw [hdata] at hlen
  simp only [length_append] at hlen
  have hfree : (encode entry false).length ≤ free.length := by omega
  have hwritten : (a.write .out entry).data =
      out ++ (encode entry false ++ (free.drop (encode entry false).length ++ into)) := by
    have hcopy := copyTo_front out free into h.outLen hfree
    rw [← hdata] at hcopy
    exact hcopy
  refine ⟨⟨free.drop (encode entry false).length, by rw [hwritten, append_assoc]⟩, ?_, h.inLen,
    ?_, h.bound⟩
  · rw [length_append, ← h.outLen]
    rfl
  · rw [hwritten]
    simp only [length_append, length_drop]
    change _ = a.cap
    omega

theorem write_into (h : Holds a out into)
    (hroom : out.length + into.length + (encode entry true).length ≤ a.cap) :
    Holds (a.write .into entry) out (encode entry true ++ into) := by
  obtain ⟨free, hdata⟩ := h.bytes
  have hlen := h.cap
  rw [hdata] at hlen
  simp only [length_append] at hlen
  have hfree : (encode entry true).length ≤ free.length := by omega
  have hwritten : (a.write .into entry).data =
      out ++ (free.take (free.length - (encode entry true).length) ++
        (encode entry true ++ into)) := by
    have hdst : a.cap - (a.inLen + (encode entry true).length) + (encode entry true).length =
        out.length + free.length := by
      rw [h.inLen]
      omega
    have hcopy := copyTo_back out free into hdst hfree
    rw [← hdata] at hcopy
    exact hcopy
  refine ⟨⟨_, hwritten⟩, h.outLen, ?_, ?_, h.bound⟩
  · rw [length_append, ← h.inLen, Nat.add_comm]
    rfl
  · rw [hwritten]
    simp only [length_append, length_take]
    change _ = a.cap
    omega

/-! ### Removing an entry -/

variable {older gone newer : Bytes}

/-- The newer outgoing entries move down over the one that went. -/
theorem cut_out (h : Holds a (older ++ (gone ++ newer)) into) :
    Holds (a.cut .out older.length (older ++ gone).length) (older ++ newer) into := by
  obtain ⟨free, hdata⟩ := h.bytes
  have hout := h.outLen
  have hlen := h.cap
  rw [hdata] at hlen
  simp only [length_append] at hlen hout
  have hmoved : (a.data.drop (older ++ gone).length).take
      (a.outLen - (older ++ gone).length) = newer := by
    have hsplit : a.data = (older ++ gone) ++ (newer ++ (free ++ into)) := by
      rw [hdata]
      simp only [append_assoc]
    have hrest : a.outLen - (older ++ gone).length = newer.length := by
      rw [length_append]
      omega
    rw [hrest, hsplit, drop_left, take_left]
  have hcut : (a.cut .out older.length (older ++ gone).length).data =
      older ++ (newer ++ ((gone ++ newer).drop newer.length ++ (free ++ into))) := by
    have hroom : newer.length ≤ (gone ++ newer).length := by
      rw [length_append]
      omega
    have hcopy := copyTo_front older (gone ++ newer) (free ++ into) rfl hroom
    change Alloc.move a.data _ _ _ = _
    rw [Alloc.move, hmoved, hdata, ← hcopy]
    simp only [append_assoc]
  refine ⟨⟨(gone ++ newer).drop newer.length ++ free, ?_⟩, ?_, h.inLen, ?_, h.bound⟩
  · rw [hcut]
    simp only [append_assoc]
  · change a.outLen - _ = _
    simp only [length_append]
    omega
  · rw [hcut]
    simp only [length_append, length_drop]
    change _ = a.cap
    omega

/-- The newer incoming entries, which lie below, move up. -/
theorem cut_into (h : Holds a out (newer ++ (gone ++ older))) :
    Holds (a.cut .into (newer ++ gone).length newer.length) out (newer ++ older) := by
  obtain ⟨free, hdata⟩ := h.bytes
  have hin := h.inLen
  have hlen := h.cap
  rw [hdata] at hlen
  simp only [length_append] at hlen hin
  have hbase : a.cap - a.inLen = (out ++ free).length := by
    rw [length_append]
    omega
  have hdata' : a.data = (out ++ free) ++ ((newer ++ gone) ++ older) := by
    rw [hdata]
    simp only [append_assoc]
  have hmoved : (a.data.drop (a.cap - a.inLen)).take newer.length = newer := by
    rw [hbase, hdata', drop_left, append_assoc, take_left]
  have hcut : (a.cut .into (newer ++ gone).length newer.length).data =
      (out ++ free) ++ ((newer ++ gone).take ((newer ++ gone).length - newer.length) ++
        (newer ++ older)) := by
    have hdst : (out ++ free).length + ((newer ++ gone).length - newer.length) +
        newer.length = (out ++ free).length + (newer ++ gone).length := by
      simp only [length_append]
      omega
    have hcopy := copyTo_back (out ++ free) (newer ++ gone) older hdst
      (by rw [length_append]; omega)
    change Alloc.move a.data _ _ _ = _
    rw [Alloc.move, hmoved, hbase, ← hcopy, hdata']
  refine ⟨⟨free ++ (newer ++ gone).take ((newer ++ gone).length - newer.length), ?_⟩, h.outLen,
    ?_, ?_, h.bound⟩
  · rw [hcut]
    simp only [append_assoc]
  · change a.inLen - _ = _
    simp only [length_append]
    omega
  · rw [hcut]
    simp only [length_append, length_take]
    change _ = a.cap
    omega

end Holds

/-! ### Removing many entries -/

/-- The entries that stay. -/
def stay (gone : AdjEntry → Bool) (entries : List AdjEntry) : List AdjEntry :=
  entries.filter fun e => !gone e

/-- The pass keeps what it has kept, then a gap over which the next kept entry moves. -/
theorem sweepOut_eq (gone : AdjEntry → Bool) (coming : List AdjEntry) (kept gap : Bytes)
    (removed fuel : ℕ)
    (hvalid : ∀ e ∈ coming, Valid e) (hfuel : coming.length < fuel) :
    ∃ rest, sweepOut gone fuel (kept ++ (gap ++ bytesOf false coming))
        (kept.length + gap.length) kept.length removed =
          (kept ++ (bytesOf false (stay gone coming) ++ rest),
            kept.length + (bytesOf false (stay gone coming)).length,
            removed + (coming.filter gone).length) ∧
      (bytesOf false (stay gone coming)).length + rest.length =
        gap.length + (bytesOf false coming).length := by
  induction coming generalizing kept gap removed fuel with
  | nil =>
    obtain ⟨fuel, rfl⟩ : ∃ n, fuel = n + 1 := ⟨fuel - 1, by omega⟩
    exact ⟨gap, by simp [sweepOut, stay, bytesOf], by simp [stay, bytesOf]⟩
  | cons entry coming ih =>
    obtain ⟨fuel, rfl⟩ : ∃ n, fuel = n + 1 := ⟨fuel - 1, by omega⟩
    have hentry : Valid entry := hvalid entry mem_cons_self
    have hrest : ∀ e ∈ coming, Valid e := fun e he => hvalid e (mem_cons_of_mem _ he)
    have hfuel' : coming.length < fuel := by simpa using hfuel
    let this := encode entry false
    have hthis : 0 < this.length := encode_length_pos entry false
    have hbytes : kept ++ (gap ++ bytesOf false (entry :: coming)) =
        (kept ++ gap) ++ this ++ bytesOf false coming := by
      simp [bytesOf, this]
    have hread : kept.length + gap.length = (kept ++ gap).length := by rw [length_append]
    have hlt : kept.length + gap.length <
        (kept ++ (gap ++ bytesOf false (entry :: coming))).length := by
      rw [hbytes]
      simp only [length_append]
      omega
    have hn : entryLen ((kept ++ (gap ++ bytesOf false (entry :: coming))).getD
        (kept.length + gap.length) 0) = this.length := by
      rw [hbytes, hread, getD_forward, hentry.entryLen_eq false]
    have hnext : next (kept ++ (gap ++ bytesOf false (entry :: coming))) false
        (kept.length + gap.length) = some (entry, (kept ++ gap).length + this.length) := by
      rw [hbytes, hread]
      exact next_forward hentry _ _
    rw [sweepOut, if_pos hlt]
    simp only [hn, hnext]
    by_cases hgone : gone entry = true
    · obtain ⟨rest, hsweep, hlen⟩ := ih kept (gap ++ this) (removed + 1) fuel hrest hfuel'
      have hstay : stay gone (entry :: coming) = stay gone coming := by simp [stay, hgone]
      refine ⟨rest, ?_, ?_⟩
      · rw [if_pos hgone, hstay, filter_cons_of_pos hgone, length_cons]
        rw [length_append, ← Nat.add_assoc, append_assoc] at hsweep
        rw [bytesOf, if_neg Bool.false_ne_true, hsweep]
        congr 2
        omega
      · rw [hstay, hlen, bytesOf, if_neg Bool.false_ne_true]
        simp only [length_append, this]
        omega
    · have hstay : stay gone (entry :: coming) = entry :: stay gone coming := by
        simp [stay, hgone]
      have hroom : this.length ≤ (gap ++ this).length := by
        rw [length_append]
        omega
      have hmove : Alloc.move (kept ++ (gap ++ bytesOf false (entry :: coming)))
          (kept.length + gap.length) kept.length this.length =
            (kept ++ this) ++ ((gap ++ this).drop this.length ++ bytesOf false coming) := by
        have hcopy := copyTo_front kept (gap ++ this) (bytesOf false coming) rfl hroom
        have hsrc : ((kept ++ (gap ++ bytesOf false (entry :: coming))).drop
            (kept.length + gap.length)).take this.length = this := by
          rw [hbytes, hread, append_assoc, drop_left, take_left]
        rw [Alloc.move, hsrc, hbytes]
        simp only [append_assoc] at hcopy ⊢
        exact hcopy
      obtain ⟨rest, hsweep, hlen⟩ := ih (kept ++ this) ((gap ++ this).drop this.length)
        removed fuel hrest hfuel'
      have hgap : ((gap ++ this).drop this.length).length = gap.length := by
        rw [length_drop, length_append, Nat.add_sub_cancel]
      refine ⟨rest, ?_, ?_⟩
      · rw [if_neg hgone, hmove, hstay, filter_cons_of_neg hgone]
        have hpos : kept.length + gap.length + this.length =
            (kept ++ this).length + ((gap ++ this).drop this.length).length := by
          rw [hgap, length_append]
          omega
        have hpos' : kept.length + this.length = (kept ++ this).length := by rw [length_append]
        rw [hpos, hpos', hsweep]
        simp only [bytesOf, Bool.false_eq_true, if_false, append_assoc, length_append, this,
          Nat.add_assoc]
      · rw [hstay]
        simp only [bytesOf, Bool.false_eq_true, if_false, length_append]
        rw [hgap] at hlen
        omega

/-- The mirrored pass: its gap lies below what it has kept. -/
theorem sweepIn_eq (gone : AdjEntry → Bool) (coming : List AdjEntry) (kept gap : Bytes)
    (removed fuel : ℕ)
    (hvalid : ∀ e ∈ coming, Valid e) (hfuel : coming.length < fuel) :
    ∃ rest, sweepIn gone fuel (bytesOf true coming ++ (gap ++ kept))
        (bytesOf true coming).length ((bytesOf true coming).length + gap.length) removed =
          (rest ++ (bytesOf true (stay gone coming) ++ kept), rest.length,
            removed + (coming.filter gone).length) ∧
      rest.length + (bytesOf true (stay gone coming)).length =
        (bytesOf true coming).length + gap.length := by
  induction coming generalizing kept gap removed fuel with
  | nil =>
    obtain ⟨fuel, rfl⟩ : ∃ n, fuel = n + 1 := ⟨fuel - 1, by omega⟩
    exact ⟨gap, by simp [sweepIn, stay, bytesOf], by simp [stay, bytesOf]⟩
  | cons entry coming ih =>
    obtain ⟨fuel, rfl⟩ : ∃ n, fuel = n + 1 := ⟨fuel - 1, by omega⟩
    have hentry : Valid entry := hvalid entry mem_cons_self
    have hrest : ∀ e ∈ coming, Valid e := fun e he => hvalid e (mem_cons_of_mem _ he)
    have hfuel' : coming.length < fuel := by simpa using hfuel
    let this := encode entry true
    let below := bytesOf true coming
    have hthis : 0 < this.length := encode_length_pos entry true
    have hcons : bytesOf true (entry :: coming) = below ++ this := rfl
    have hbytes : below ++ this ++ (gap ++ kept) = below ++ encode entry true ++ (gap ++ kept) :=
      rfl
    have hread : (below ++ this).length = below.length + (encode entry true).length := by
      rw [length_append]
    have hlt : 0 < (below ++ this).length := by
      rw [length_append]
      omega
    have hn : entryLen ((below ++ this ++ (gap ++ kept)).getD ((below ++ this).length - 1) 0) =
        this.length := by
      rw [hbytes, hread, getD_backward, hentry.entryLen_eq true]
    have hnext : next (below ++ this ++ (gap ++ kept)) true (below ++ this).length =
        some (entry, below.length) := by
      rw [hbytes, hread]
      exact next_backward hentry _ _
    have hback : (below ++ this).length - this.length = below.length := by
      rw [length_append, Nat.add_sub_cancel]
    rw [hcons, sweepIn, if_pos hlt]
    simp only [hn, hnext, hback]
    by_cases hgone : gone entry = true
    · obtain ⟨rest, hsweep, hlen⟩ := ih kept (this ++ gap) (removed + 1) fuel hrest hfuel'
      have hstay : stay gone (entry :: coming) = stay gone coming := by simp [stay, hgone]
      refine ⟨rest, ?_, ?_⟩
      · have hbytes' : below ++ this ++ (gap ++ kept) = below ++ (this ++ gap ++ kept) := by
          simp only [append_assoc]
        have hwrite : (below ++ this).length + gap.length =
            below.length + (this ++ gap).length := by
          simp only [length_append]
          omega
        rw [if_pos hgone, hstay, filter_cons_of_pos hgone, length_cons, hbytes', hwrite, hsweep]
        congr 2
        omega
      · rw [hstay, hlen]
        simp only [length_append, below]
        omega
    · have hstay : stay gone (entry :: coming) = entry :: stay gone coming := by
        simp [stay, hgone]
      have hroom : this.length ≤ (this ++ gap).length := by
        rw [length_append]
        omega
      have hwrite : (below ++ this).length + gap.length - this.length =
          below.length + gap.length := by
        rw [length_append]
        omega
      have hmove : Alloc.move (below ++ this ++ (gap ++ kept)) below.length
          (below.length + gap.length) this.length =
            below ++ ((this ++ gap).take ((this ++ gap).length - this.length) ++
              (this ++ kept)) := by
        have hdst : below.length + gap.length + this.length =
            below.length + (this ++ gap).length := by
          rw [length_append]
          omega
        have hcopy := copyTo_back below (this ++ gap) kept hdst hroom
        have hsrc : ((below ++ this ++ (gap ++ kept)).drop below.length).take this.length =
            this := by
          rw [append_assoc, drop_left, take_left]
        rw [Alloc.move, hsrc, ← hcopy]
        simp only [append_assoc]
      let gap' := (this ++ gap).take ((this ++ gap).length - this.length)
      have hgap : gap'.length = gap.length := by
        simp only [gap', length_take, length_append]
        omega
      obtain ⟨rest, hsweep, hlen⟩ := ih (this ++ kept) gap' removed fuel hrest hfuel'
      refine ⟨rest, ?_, ?_⟩
      · rw [if_neg hgone, hwrite, hmove, hstay, filter_cons_of_neg hgone]
        rw [hgap] at hsweep
        rw [hsweep]
        simp only [bytesOf, if_true, append_assoc, this]
      · rw [hstay]
        simp only [bytesOf, if_true, length_append]
        rw [hgap] at hlen
        simp only [this, below]
        omega

namespace Holds

variable {a : Alloc} {out into : Bytes} {gone : AdjEntry → Bool} {passed coming : List AdjEntry}

theorem sweep_out (h : Holds a (bytesOf false (passed ++ coming)) into)
    (hvalid : ∀ e ∈ coming, Valid e) :
    Holds (a.sweep .out gone (edge false passed coming)).1
        (bytesOf false (passed ++ stay gone coming)) into ∧
      (a.sweep .out gone (edge false passed coming)).2 = (coming.filter gone).length := by
  have hside := h.side_out
  have hbytes : bytesOf false (passed ++ coming) = bytesOf false passed ++
      ([] ++ bytesOf false coming) := by
    simp [bytesOf_append]
  have hfuel : coming.length < (bytesOf false (passed ++ coming)).length + 1 := by
    have hle := length_le_bytesOf false (passed ++ coming)
    rw [length_append] at hle
    omega
  obtain ⟨rest, hsweep, hlen⟩ := sweepOut_eq gone coming (bytesOf false passed) [] 0 _
    hvalid hfuel
  rw [← hbytes] at hsweep
  simp only [length_nil, Nat.add_zero, Nat.zero_add] at hsweep
  have hkept : bytesOf false (passed ++ stay gone coming) =
      bytesOf false passed ++ bytesOf false (stay gone coming) := by
    simp [bytesOf_append]
  let swept := bytesOf false passed ++ (bytesOf false (stay gone coming) ++ rest)
  have heq : a.sweep .out gone (edge false passed coming) = ({ a with
          outLen := (bytesOf false passed).length + (bytesOf false (stay gone coming)).length
          data := Alloc.copyTo a.data 0 swept }, (coming.filter gone).length) := by
    have hfirst : edge false passed coming = (bytesOf false passed).length := rfl
    rw [Alloc.sweep, hside, hfirst]
    simp only [hsweep, swept]
  obtain ⟨free, hdata⟩ := h.bytes
  have hswept : swept.length = (bytesOf false (passed ++ coming)).length := by
    rw [hbytes]
    simp only [swept, length_append, length_nil]
    simp only [length_nil] at hlen
    omega
  have hcopy : Alloc.copyTo a.data 0 swept = swept ++ (free ++ into) := by
    have hfront := copyTo_front [] (bytesOf false (passed ++ coming)) (free ++ into) rfl
      hswept.le
    rw [drop_eq_nil_of_le hswept.ge] at hfront
    rw [hdata]
    simpa using hfront
  rw [heq]
  refine ⟨⟨⟨rest ++ free, ?_⟩, ?_, h.inLen, ?_, h.bound⟩, rfl⟩
  · change Alloc.copyTo a.data 0 swept = _
    rw [hcopy, hkept]
    simp only [swept, append_assoc]
  · rw [hkept, length_append]
  · change (Alloc.copyTo a.data 0 swept).length = a.cap
    rw [hcopy, ← h.cap, hdata]
    simp only [length_append, hswept]

theorem sweep_into (h : Holds a out (bytesOf true (passed ++ coming)))
    (hvalid : ∀ e ∈ coming, Valid e) :
    Holds (a.sweep .into gone (edge true passed coming)).1 out
        (bytesOf true (passed ++ stay gone coming)) ∧
      (a.sweep .into gone (edge true passed coming)).2 = (coming.filter gone).length := by
  have hside := h.side_into
  have hbytes : bytesOf true (passed ++ coming) = bytesOf true coming ++
      ([] ++ bytesOf true passed) := by
    simp [bytesOf_append]
  have hfuel : coming.length < (bytesOf true (passed ++ coming)).length + 1 := by
    have hle := length_le_bytesOf true (passed ++ coming)
    rw [length_append] at hle
    omega
  obtain ⟨rest, hsweep, hlen⟩ := sweepIn_eq gone coming (bytesOf true passed) [] 0 _
    hvalid hfuel
  rw [← hbytes] at hsweep
  simp only [length_nil, Nat.add_zero, Nat.zero_add] at hsweep
  rw [length_nil, Nat.add_zero] at hlen
  have hkept : bytesOf true (passed ++ stay gone coming) =
      bytesOf true (stay gone coming) ++ bytesOf true passed := by
    simp [bytesOf_append]
  let swept := rest ++ (bytesOf true (stay gone coming) ++ bytesOf true passed)
  have heq : a.sweep .into gone (edge true passed coming) = ({ a with
          inLen := a.inLen - rest.length
          data := Alloc.copyTo a.data (a.cap - a.inLen) swept }, (coming.filter gone).length) := by
    have hfirst : edge true passed coming = (bytesOf true coming).length := rfl
    rw [Alloc.sweep, hside, hfirst]
    simp only [hsweep, swept]
  obtain ⟨free, hdata⟩ := h.bytes
  have hin := h.inLen
  have hcap := h.cap
  have hswept : swept.length = (bytesOf true (passed ++ coming)).length := by
    rw [hbytes]
    simp only [swept, length_append, length_nil]
    omega
  have hpos : a.cap - a.inLen = (out ++ free).length := by
    rw [hdata] at hcap
    simp only [length_append] at hcap ⊢
    omega
  have hcopy : Alloc.copyTo a.data (a.cap - a.inLen) swept = out ++ (free ++ swept) := by
    have hfront := copyTo_front (out ++ free) (bytesOf true (passed ++ coming)) [] hpos hswept.le
    rw [drop_eq_nil_of_le hswept.ge] at hfront
    rw [hdata]
    simpa only [append_nil, append_assoc] using hfront
  rw [heq]
  refine ⟨⟨⟨free ++ rest, ?_⟩, h.outLen, ?_, ?_, h.bound⟩, rfl⟩
  · change Alloc.copyTo a.data _ swept = _
    rw [hcopy, hkept]
    simp only [swept, append_assoc]
  · change a.inLen - rest.length = _
    rw [hkept, hin, ← hswept]
    simp only [swept, length_append]
    omega
  · change (Alloc.copyTo a.data _ swept).length = a.cap
    rw [hcopy, ← h.cap, hdata]
    simp only [length_append, hswept]

end Holds

end AdjBytes

end LoraDb
