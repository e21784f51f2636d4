import LoraDb.Adjacency
import LoraDb.ByteCodec

/-!
# Adjacency Entries as Bytes

An entry takes as many bytes as its numbers need: a header byte with the three widths, then
the numbers. The entries of an incoming list are mirrored, with the header byte last, so
that they are read backward from the end of the list.

## Main results

* `next_bytesOf`: a walk over the bytes of a list yields its next entry.
* `entries_bytesOf`, `count_bytesOf`: it yields all of them, oldest first.
* `find_bytesOf`: a search stops around the first entry it looks for.
-/

open ByteCodec

namespace LoraDb

open List

namespace AdjBytes

/-! ### Entries -/

/-- The width code of a type number, and its bytes. -/
def typeCode (typeId : ℕ) : ℕ := if typeId ≤ 0xFF then 0 else if typeId ≤ 0xFFFF then 1 else 2

/-- `type_width`: the bytes a width code stands for. -/
def codeWidth (code : UInt8) : ℕ :=
  match code with
  | 0 => 1
  | 1 => 2
  | _ => 4

/-- The header byte of an entry: both id widths less one, and the type's width code. -/
def headerByte (nb rb tcode : ℕ) : UInt8 :=
  UInt8.ofNat (nb - 1) ||| (UInt8.ofNat (rb - 1) <<< 3) ||| (UInt8.ofNat tcode <<< 6)

def neighbourWidth (h : UInt8) : ℕ := (h &&& 7).toNat + 1

def relWidth (h : UInt8) : ℕ := ((h >>> 3) &&& 7).toNat + 1

/-- Bytes of the entry whose header byte is `h`, header included. -/
def entryLen (h : UInt8) : ℕ := 1 + codeWidth (h >>> 6) + neighbourWidth h + relWidth h

/-- Little-endian read of `n` bytes at `pos`: a whole word where there is one, masked, and
else only those bytes. -/
def read (bytes : Bytes) (pos n : ℕ) : ℕ :=
  if pos + 8 ≤ bytes.length then leNat ((bytes.drop pos).take 8) % 256 ^ n
  else leNat ((bytes.drop pos).take n)

/-- The bytes of an entry; `mirrored` is the incoming form, with its fields in reverse
order and the header byte last. -/
def encode (entry : AdjEntry) (mirrored : Bool) : Bytes :=
  let nb := width entry.neighbour
  let rb := width entry.rel
  let header := headerByte nb rb (typeCode entry.typeId)
  let ty := leBytes (typeWidth entry.typeId) entry.typeId
  let neighbour := leBytes nb entry.neighbour
  let rel := leBytes rb entry.rel
  if mirrored then rel ++ neighbour ++ ty ++ [header]
  else [header] ++ ty ++ neighbour ++ rel

/-- `AdjIter::next` at `pos`, the edge of the next entry: its start going forward, its end
going backward. -/
def next (bytes : Bytes) (mirrored : Bool) (pos : ℕ) : Option (AdjEntry × ℕ) :=
  if mirrored then
    if pos = 0 then none
    else
      let h := bytes.getD (pos - 1) 0
      let tb := codeWidth (h >>> 6)
      let nb := neighbourWidth h
      let rb := relWidth h
      let ty := pos - 1 - tb
      let neighbour := ty - nb
      let rel := neighbour - rb
      some (⟨read bytes ty tb % 2 ^ 32, read bytes neighbour nb, read bytes rel rb⟩, rel)
  else
    match bytes[pos]? with
    | none => none
    | some h =>
      let tb := codeWidth (h >>> 6)
      let nb := neighbourWidth h
      let rb := relWidth h
      let p := pos + 1
      some (⟨read bytes p tb % 2 ^ 32, read bytes (p + tb) nb, read bytes (p + tb + nb) rb⟩,
        p + tb + nb + rb)

/-- Where a walk over a list starts. -/
def startPos (bytes : Bytes) (mirrored : Bool) : ℕ := if mirrored then bytes.length else 0

/-- The entries of a list, oldest first; an entry takes a byte at least. -/
def entriesFrom (bytes : Bytes) (mirrored : Bool) : ℕ → ℕ → List AdjEntry
  | 0, _ => []
  | fuel + 1, pos =>
    match next bytes mirrored pos with
    | none => []
    | some (entry, pos) => entry :: entriesFrom bytes mirrored fuel pos

def entries (bytes : Bytes) (mirrored : Bool) : List AdjEntry :=
  entriesFrom bytes mirrored (bytes.length + 1) (startPos bytes mirrored)

/-- The number of entries from `pos` on, by their header bytes alone. -/
def countFrom (bytes : Bytes) (mirrored : Bool) : ℕ → ℕ → ℕ
  | 0, _ => 0
  | fuel + 1, pos =>
    if mirrored then
      if pos = 0 then 0
      else 1 + countFrom bytes mirrored fuel (pos - entryLen (bytes.getD (pos - 1) 0))
    else
      if pos < bytes.length then
        1 + countFrom bytes mirrored fuel (pos + entryLen (bytes.getD pos 0))
      else 0

def count (bytes : Bytes) (mirrored : Bool) : ℕ :=
  countFrom bytes mirrored (bytes.length + 1) (startPos bytes mirrored)

/-- The first entry from `pos` on that `p` holds of, as the positions before and after it. -/
def find (bytes : Bytes) (mirrored : Bool) (p : AdjEntry → Bool) : ℕ → ℕ → Option (ℕ × ℕ)
  | 0, _ => none
  | fuel + 1, pos =>
    match next bytes mirrored pos with
    | none => none
    | some (entry, after) =>
      if p entry then some (pos, after) else find bytes mirrored p fuel after

/-! ### One entry -/

section Entry

variable {entry : AdjEntry} {mirrored : Bool}

/-- The numbers of an entry are machine numbers. -/
structure Valid (entry : AdjEntry) : Prop where
  typeId : entry.typeId < 2 ^ 32
  neighbour : entry.neighbour < 2 ^ 64
  rel : entry.rel < 2 ^ 64

/-- The header byte of an entry. -/
def headerOf (entry : AdjEntry) : UInt8 :=
  headerByte (width entry.neighbour) (width entry.rel) (typeCode entry.typeId)

/-- The header byte holds all three widths. -/
theorem header_widths : ∀ nb < 8, ∀ rb < 8, ∀ tcode < 3,
    neighbourWidth (headerByte (nb + 1) (rb + 1) tcode) = nb + 1 ∧
      relWidth (headerByte (nb + 1) (rb + 1) tcode) = rb + 1 ∧
      headerByte (nb + 1) (rb + 1) tcode >>> 6 = UInt8.ofNat tcode := by
  decide +kernel

theorem width_pos (n : ℕ) : 0 < width n := by
  rw [width]
  omega

theorem width_le {n : ℕ} (h : n < 2 ^ 64) : width n ≤ 8 := by
  have hsize : n.size ≤ 64 := Nat.size_le.mpr h
  rw [width]
  omega

/-- A number fits its width. -/
theorem lt_pow_width (n : ℕ) : n < 256 ^ width n := by
  have hsize : n < 2 ^ n.size := Nat.lt_size_self n
  have hle : n.size ≤ 8 * width n := by
    rw [width]
    omega
  calc n < 2 ^ n.size := hsize
    _ ≤ 2 ^ (8 * width n) := Nat.pow_le_pow_right (by omega) hle
    _ = 256 ^ width n := by rw [Nat.pow_mul]

theorem typeCode_lt (typeId : ℕ) : typeCode typeId < 3 := by
  rw [typeCode]
  split_ifs <;> omega

theorem codeWidth_typeCode (typeId : ℕ) :
    codeWidth (UInt8.ofNat (typeCode typeId)) = typeWidth typeId := by
  rw [typeCode, typeWidth]
  split_ifs <;> rfl

theorem typeWidth_le (typeId : ℕ) : typeWidth typeId ≤ 8 := by
  rw [typeWidth]
  split_ifs <;> omega

theorem lt_pow_typeWidth {typeId : ℕ} (h : typeId < 2 ^ 32) : typeId < 256 ^ typeWidth typeId := by
  rw [typeWidth]
  split_ifs <;> omega

namespace Valid

variable (h : Valid entry)

include h

theorem header : neighbourWidth (headerOf entry) = width entry.neighbour ∧
    relWidth (headerOf entry) = width entry.rel ∧
    codeWidth (headerOf entry >>> 6) = typeWidth entry.typeId := by
  have hn := width_pos entry.neighbour
  have hr := width_pos entry.rel
  have hn' := width_le h.neighbour
  have hr' := width_le h.rel
  have hwidths := header_widths (width entry.neighbour - 1) (by omega)
    (width entry.rel - 1) (by omega) (typeCode entry.typeId) (typeCode_lt _)
  rw [Nat.sub_add_cancel hn, Nat.sub_add_cancel hr] at hwidths
  obtain ⟨hnb, hrb, hcode⟩ := hwidths
  exact ⟨hnb, hrb, by rw [headerOf, hcode, codeWidth_typeCode]⟩

theorem neighbourWidth_eq : neighbourWidth (headerOf entry) = width entry.neighbour := h.header.1

theorem relWidth_eq : relWidth (headerOf entry) = width entry.rel := h.header.2.1

theorem codeWidth_eq : codeWidth (headerOf entry >>> 6) = typeWidth entry.typeId := h.header.2.2

/-- The header byte tells the length of the entry. -/
theorem entryLen_eq (mirrored : Bool) :
    AdjBytes.entryLen (headerOf entry) = (encode entry mirrored).length := by
  rw [AdjBytes.entryLen, h.neighbourWidth_eq, h.relWidth_eq, h.codeWidth_eq]
  cases mirrored <;> simp [encode] <;> omega

end Valid

theorem encode_length (entry : AdjEntry) (mirrored : Bool) :
    (encode entry mirrored).length = entry.entryLen := by
  rw [AdjEntry.entryLen]
  cases mirrored <;> simp [encode] <;> omega

theorem encode_length_pos (entry : AdjEntry) (mirrored : Bool) :
    0 < (encode entry mirrored).length := by
  rw [encode_length, AdjEntry.entryLen]
  omega

/-! ### Reading a number -/

theorem leNat_append (xs ys : Bytes) : leNat (xs ++ ys) =
    leNat xs + 256 ^ xs.length * leNat ys := by
  induction xs with
  | nil => simp [leNat]
  | cons x xs ih =>
    rw [cons_append, leNat, leNat, ih, length_cons, Nat.pow_succ]
    ring

/-- The masked word is the number of its low bytes. -/
theorem leNat_take_mod {bytes : Bytes} {n : ℕ} (hn : n ≤ bytes.length) :
    leNat bytes % 256 ^ n = leNat (bytes.take n) := by
  have hlen : (bytes.take n).length = n := length_take_of_le hn
  have hlt := leNat_lt (bytes.take n)
  rw [hlen] at hlt
  conv_lhs => rw [← take_append_drop n bytes]
  rw [leNat_append, hlen, Nat.add_mul_mod_self_left, Nat.mod_eq_of_lt hlt]

/-- Both ways to read give the same number. -/
theorem read_eq {pre bytes post : Bytes} {n : ℕ} (hlen : bytes.length = n) (hn : n ≤ 8) :
    read (pre ++ (bytes ++ post)) pre.length n = leNat bytes := by
  have hdrop : (pre ++ (bytes ++ post)).drop pre.length = bytes ++ post := drop_left
  have htake : (bytes ++ post).take n = bytes := by rw [← hlen, take_left]
  rw [read, hdrop]
  split_ifs with hword
  · have hle : n ≤ ((bytes ++ post).take 8).length := by
      rw [length_append] at hword
      rw [length_take]
      omega
    rw [leNat_take_mod hle, take_take, Nat.min_eq_left hn, htake]
  · rw [htake]

/-- What was written is read back. -/
theorem read_leBytes {pre post : Bytes} {n value : ℕ} (hlt : value < 256 ^ n) (hn : n ≤ 8) :
    read (pre ++ (leBytes n value ++ post)) pre.length n = value := by
  rw [read_eq (leBytes_length n value) hn, leNat_leBytes hlt]

/-- `read_leBytes` at a position given as a number. -/
theorem read_leBytes_at (pre post : Bytes) {bytes : Bytes} {pos n value : ℕ}
    (hlt : value < 256 ^ n) (hn : n ≤ 8) (hbytes : bytes = pre ++ (leBytes n value ++ post))
    (hpos : pos = pre.length) :
    read bytes pos n = value := by
  rw [hbytes, hpos, read_leBytes hlt hn]

/-! ### Walking -/

/-- The header byte at the edge of an entry. -/
theorem getD_forward (entry : AdjEntry) (pre post : Bytes) :
    (pre ++ encode entry false ++ post).getD pre.length 0 = headerOf entry := by
  simp [encode, headerOf, getD_eq_getElem?_getD]

theorem getD_backward (entry : AdjEntry) (pre post : Bytes) :
    (pre ++ encode entry true ++ post).getD
      (pre.length + (encode entry true).length - 1) 0 = headerOf entry := by
  have hbytes : encode entry true = (encode entry true).dropLast ++ [headerOf entry] := by
    simp [encode, headerOf]
  have hpos : pre.length + (encode entry true).length - 1 =
      (pre ++ (encode entry true).dropLast).length := by
    have hlen := encode_length_pos entry true
    rw [length_append, length_dropLast]
    omega
  have hall : pre ++ encode entry true ++ post =
      (pre ++ (encode entry true).dropLast) ++ (headerOf entry :: post) := by
    conv_lhs => rw [hbytes]
    simp
  rw [hpos, hall, getD_eq_getElem?_getD, getElem?_append_right le_rfl, Nat.sub_self]
  rfl

/-- Going forward, the next entry is the one that starts here. -/
theorem next_forward (h : Valid entry) (pre post : Bytes) :
    next (pre ++ encode entry false ++ post) false pre.length =
      some (entry, pre.length + (encode entry false).length) := by
  let ty := leBytes (typeWidth entry.typeId) entry.typeId
  let neighbour := leBytes (width entry.neighbour) entry.neighbour
  let rel := leBytes (width entry.rel) entry.rel
  have hbytes : pre ++ encode entry false ++ post =
      pre ++ [headerOf entry] ++ (ty ++ (neighbour ++ (rel ++ post))) := by
    simp [encode, headerOf, ty, neighbour, rel]
  have hhead : (pre ++ encode entry false ++ post)[pre.length]? = some (headerOf entry) := by
    rw [hbytes]
    simp
  have hty : read (pre ++ encode entry false ++ post) (pre.length + 1)
      (typeWidth entry.typeId) = entry.typeId :=
    read_leBytes_at (pre ++ [headerOf entry]) (neighbour ++ (rel ++ post))
      (lt_pow_typeWidth h.typeId) (typeWidth_le _) hbytes (by simp)
  have hneighbour : read (pre ++ encode entry false ++ post)
      (pre.length + 1 + typeWidth entry.typeId) (width entry.neighbour) = entry.neighbour :=
    read_leBytes_at (pre ++ [headerOf entry] ++ ty) (rel ++ post)
      (lt_pow_width _) (width_le h.neighbour) (by rw [hbytes]; simp [ty, neighbour])
      (by simp [ty]; omega)
  have hrel : read (pre ++ encode entry false ++ post)
      (pre.length + 1 + typeWidth entry.typeId + width entry.neighbour) (width entry.rel) =
        entry.rel :=
    read_leBytes_at (pre ++ [headerOf entry] ++ ty ++ neighbour) post
      (lt_pow_width _) (width_le h.rel) (by rw [hbytes]; simp [ty, neighbour, rel])
      (by simp [ty, neighbour]; omega)
  rw [next, hhead]
  simp only [Bool.false_eq_true, if_false, h.codeWidth_eq, h.neighbourWidth_eq, h.relWidth_eq,
    hty, hneighbour, hrel, Nat.mod_eq_of_lt h.typeId, encode_length, AdjEntry.entryLen]
  congr 2
  omega

/-- Going backward, the next entry is the one that ends here. -/
theorem next_backward (h : Valid entry) (pre post : Bytes) :
    next (pre ++ encode entry true ++ post) true (pre.length + (encode entry true).length) =
      some (entry, pre.length) := by
  let ty := leBytes (typeWidth entry.typeId) entry.typeId
  let neighbour := leBytes (width entry.neighbour) entry.neighbour
  let rel := leBytes (width entry.rel) entry.rel
  have hbytes : pre ++ encode entry true ++ post =
      pre ++ (rel ++ (neighbour ++ (ty ++ headerOf entry :: post))) := by
    simp [encode, headerOf, ty, neighbour, rel]
  have hlen : (encode entry true).length =
      width entry.rel + width entry.neighbour + typeWidth entry.typeId + 1 := by
    rw [encode_length, AdjEntry.entryLen]
    omega
  have hrel : read (pre ++ encode entry true ++ post) pre.length (width entry.rel) = entry.rel :=
    read_leBytes_at pre _ (lt_pow_width _) (width_le h.rel) hbytes rfl
  have hneighbour : read (pre ++ encode entry true ++ post) (pre.length + width entry.rel)
      (width entry.neighbour) = entry.neighbour :=
    read_leBytes_at (pre ++ rel) (ty ++ headerOf entry :: post) (lt_pow_width _)
      (width_le h.neighbour) (by rw [hbytes]; simp [rel, neighbour]) (by simp [rel])
  have hty : read (pre ++ encode entry true ++ post)
      (pre.length + width entry.rel + width entry.neighbour) (typeWidth entry.typeId) =
        entry.typeId :=
    read_leBytes_at (pre ++ rel ++ neighbour) (headerOf entry :: post)
      (lt_pow_typeWidth h.typeId) (typeWidth_le _) (by rw [hbytes]; simp [rel, neighbour, ty])
      (by simp [rel, neighbour]; omega)
  have htyPos : pre.length + (encode entry true).length - 1 - typeWidth entry.typeId =
      pre.length + width entry.rel + width entry.neighbour := by omega
  have hneighbourPos : pre.length + width entry.rel + width entry.neighbour -
      width entry.neighbour = pre.length + width entry.rel := by omega
  have hrelPos : pre.length + width entry.rel - width entry.rel = pre.length := by omega
  have hne : pre.length + (encode entry true).length ≠ 0 := by omega
  rw [next, if_pos rfl, if_neg hne]
  simp only [getD_backward, h.codeWidth_eq, h.neighbourWidth_eq, h.relWidth_eq, htyPos,
    hneighbourPos, hrelPos, hty, hneighbour, hrel, Nat.mod_eq_of_lt h.typeId]

end Entry

/-! ### Lists of entries -/

/-- The bytes of a list of entries, oldest first; a mirrored list has its oldest entry at
the end. -/
def bytesOf (mirrored : Bool) : List AdjEntry → Bytes
  | [] => []
  | entry :: entries =>
    if mirrored then bytesOf mirrored entries ++ encode entry true
    else encode entry false ++ bytesOf mirrored entries

/-- Where a walk is between the entries it has yielded and those to come. -/
def edge (mirrored : Bool) (yielded coming : List AdjEntry) : ℕ :=
  if mirrored then (bytesOf true coming).length else (bytesOf false yielded).length

section Lists

variable {entry : AdjEntry} {entries yielded coming : List AdjEntry} {mirrored : Bool}

theorem bytesOf_append (xs ys : List AdjEntry) : bytesOf mirrored (xs ++ ys) =
      if mirrored then bytesOf mirrored ys ++ bytesOf mirrored xs
      else bytesOf mirrored xs ++ bytesOf mirrored ys := by
  induction xs with
  | nil => cases mirrored <;> simp [bytesOf]
  | cons x xs ih => cases mirrored <;> simp [bytesOf, ih]

theorem bytesOf_length (entries : List AdjEntry) :
    (bytesOf mirrored entries).length = (entries.map AdjEntry.entryLen).sum := by
  induction entries with
  | nil => rfl
  | cons entry entries ih =>
    cases mirrored <;> simp [bytesOf, encode_length, ih, Nat.add_comm]

/-- An entry takes a byte at least. -/
theorem length_le_bytesOf (mirrored : Bool) (entries : List AdjEntry) :
    entries.length ≤ (bytesOf mirrored entries).length := by
  induction entries with
  | nil => exact le_rfl
  | cons entry entries ih =>
    have hpos : 0 < entry.entryLen := by
      rw [AdjEntry.entryLen]
      omega
    rw [bytesOf_length] at ih ⊢
    rw [length_cons, map_cons, sum_cons]
    omega

theorem bytesOf_eq_nil (h : bytesOf mirrored entries = []) : entries = [] := by
  have hle := length_le_bytesOf mirrored entries
  rw [h] at hle
  exact List.length_eq_zero_iff.mp (by simpa using hle)

/-- A walk yields its next entry and stops behind it. -/
theorem next_bytesOf (h : Valid entry) :
    next (bytesOf mirrored (yielded ++ entry :: coming)) mirrored
        (edge mirrored yielded (entry :: coming)) =
      some (entry, edge mirrored (yielded ++ [entry]) coming) := by
  cases mirrored with
  | true =>
    have hnext := next_backward h (bytesOf true coming) (bytesOf true yielded)
    simpa [bytesOf_append, bytesOf, edge] using hnext
  | false =>
    have hnext := next_forward h (bytesOf false yielded) (bytesOf false coming)
    simpa [bytesOf_append, bytesOf, edge] using hnext

/-- A walk ends behind the last entry. -/
theorem next_end : next (bytesOf mirrored entries) mirrored (edge mirrored entries []) = none := by
  cases mirrored with
  | true => simp [next, edge, bytesOf]
  | false => simp [next, edge]

theorem entriesFrom_bytesOf (yielded : List AdjEntry) {fuel : ℕ} (hvalid : ∀ e ∈ coming, Valid e)
    (hfuel : coming.length < fuel) :
    entriesFrom (bytesOf mirrored (yielded ++ coming)) mirrored fuel
      (edge mirrored yielded coming) = coming := by
  induction coming generalizing yielded fuel with
  | nil =>
    obtain ⟨fuel, rfl⟩ : ∃ n, fuel = n + 1 := ⟨fuel - 1, by omega⟩
    rw [append_nil, entriesFrom, next_end]
  | cons entry coming ih =>
    obtain ⟨fuel, rfl⟩ : ∃ n, fuel = n + 1 := ⟨fuel - 1, by omega⟩
    rw [entriesFrom, next_bytesOf (hvalid entry mem_cons_self)]
    have hrest := @ih (yielded ++ [entry]) fuel
      (fun e he => hvalid e (mem_cons_of_mem _ he)) (by simpa using hfuel)
    rw [append_assoc, singleton_append] at hrest
    exact congrArg (entry :: ·) hrest

theorem startPos_bytesOf : startPos (bytesOf mirrored entries) mirrored =
    edge mirrored [] entries := by
  cases mirrored <;> rfl

/-- Walking over a list yields all its entries. -/
theorem entries_bytesOf (hvalid : ∀ e ∈ entries, Valid e) :
    AdjBytes.entries (bytesOf mirrored entries) mirrored = entries := by
  rw [AdjBytes.entries, startPos_bytesOf]
  exact entriesFrom_bytesOf [] hvalid (Nat.lt_succ_of_le (length_le_bytesOf _ _))

theorem countFrom_bytesOf (yielded : List AdjEntry) {fuel : ℕ} (hvalid : ∀ e ∈ coming, Valid e)
    (hfuel : coming.length < fuel) :
    countFrom (bytesOf mirrored (yielded ++ coming)) mirrored fuel
      (edge mirrored yielded coming) = coming.length := by
  induction coming generalizing yielded fuel with
  | nil =>
    obtain ⟨fuel, rfl⟩ : ∃ n, fuel = n + 1 := ⟨fuel - 1, by omega⟩
    cases mirrored <;> simp [countFrom, edge, bytesOf]
  | cons entry coming ih =>
    obtain ⟨fuel, rfl⟩ : ∃ n, fuel = n + 1 := ⟨fuel - 1, by omega⟩
    have hrest := @ih (yielded ++ [entry]) fuel
      (fun e he => hvalid e (mem_cons_of_mem _ he)) (by simpa using hfuel)
    rw [append_assoc, singleton_append] at hrest
    have hentry : Valid entry := hvalid entry mem_cons_self
    have hpos := fun m => encode_length_pos entry m
    cases mirrored with
    | true =>
      have hhead := getD_backward entry (bytesOf true coming) (bytesOf true yielded)
      have hbytes : bytesOf true (yielded ++ entry :: coming) =
          bytesOf true coming ++ encode entry true ++ bytesOf true yielded := by
        simp [bytesOf_append, bytesOf]
      have hedge : edge true yielded (entry :: coming) =
          (bytesOf true coming).length + (encode entry true).length := by
        simp [edge, bytesOf]
      have hnext : edge true yielded (entry :: coming) -
          AdjBytes.entryLen (headerOf entry) = edge true (yielded ++ [entry]) coming := by
        rw [hedge, hentry.entryLen_eq true, Nat.add_sub_cancel]
        rfl
      have hne : edge true yielded (entry :: coming) ≠ 0 := by
        have := hpos true
        omega
      rw [countFrom, if_pos rfl, if_neg hne, length_cons, Nat.add_comm _ 1]
      rw [hbytes, hedge, hhead, ← hbytes, ← hedge, hnext, hrest]
    | false =>
      have hhead := getD_forward entry (bytesOf false yielded) (bytesOf false coming)
      have hbytes : bytesOf false (yielded ++ entry :: coming) =
          bytesOf false yielded ++ encode entry false ++ bytesOf false coming := by
        simp [bytesOf_append, bytesOf]
      have hedge : edge false yielded (entry :: coming) = (bytesOf false yielded).length :=
        rfl
      have hnext : edge false yielded (entry :: coming) +
          AdjBytes.entryLen (headerOf entry) = edge false (yielded ++ [entry]) coming := by
        rw [hedge, hentry.entryLen_eq false]
        simp [edge, bytesOf_append, bytesOf]
      have hlt : edge false yielded (entry :: coming) <
          (bytesOf false (yielded ++ entry :: coming)).length := by
        have := hpos false
        rw [hbytes, hedge]
        simp only [length_append]
        omega
      rw [countFrom, if_neg Bool.false_ne_true, if_pos hlt, length_cons, Nat.add_comm _ 1]
      rw [hbytes, hedge, hhead, ← hbytes, ← hedge, hnext, hrest]

/-- Counting reads only header bytes, and counts the entries. -/
theorem count_bytesOf (hvalid : ∀ e ∈ entries, Valid e) :
    AdjBytes.count (bytesOf mirrored entries) mirrored = entries.length := by
  rw [AdjBytes.count, startPos_bytesOf]
  exact countFrom_bytesOf [] hvalid (Nat.lt_succ_of_le (length_le_bytesOf _ _))

variable {p : AdjEntry → Bool}

theorem findFrom_bytesOf_none (yielded : List AdjEntry) {fuel : ℕ} (hvalid : ∀ e ∈ coming, Valid e)
    (hnone : ∀ e ∈ coming, p e = false) :
    find (bytesOf mirrored (yielded ++ coming)) mirrored p fuel
      (edge mirrored yielded coming) = none := by
  induction coming generalizing yielded fuel with
  | nil =>
    cases fuel with
    | zero => rfl
    | succ fuel => rw [append_nil, find, next_end]
  | cons entry coming ih =>
    cases fuel with
    | zero => rfl
    | succ fuel =>
      have hrest := @ih (yielded ++ [entry]) fuel
        (fun e he => hvalid e (mem_cons_of_mem _ he))
        (fun e he => hnone e (mem_cons_of_mem _ he))
      rw [append_assoc, singleton_append] at hrest
      rw [find, next_bytesOf (hvalid entry mem_cons_self)]
      simp only [hnone entry mem_cons_self, Bool.false_eq_true, if_false]
      exact hrest

theorem findFrom_bytesOf (mirrored : Bool) (yielded : List AdjEntry) {fuel : ℕ}
    {passed : List AdjEntry}
    (hvalid : ∀ e ∈ passed ++ entry :: coming, Valid e)
    (hpassed : ∀ e ∈ passed, p e = false) (hp : p entry = true) (hfuel : passed.length < fuel) :
    find (bytesOf mirrored (yielded ++ (passed ++ entry :: coming))) mirrored p fuel
        (edge mirrored yielded (passed ++ entry :: coming)) =
      some (edge mirrored (yielded ++ passed) (entry :: coming),
        edge mirrored (yielded ++ passed ++ [entry]) coming) := by
  induction passed generalizing yielded fuel with
  | nil =>
    obtain ⟨fuel, rfl⟩ : ∃ n, fuel = n + 1 := ⟨fuel - 1, by omega⟩
    rw [nil_append, find, next_bytesOf (hvalid entry (by simp))]
    simp [hp]
  | cons e passed ih =>
    obtain ⟨fuel, rfl⟩ : ∃ n, fuel = n + 1 := ⟨fuel - 1, by omega⟩
    have hrest := @ih (yielded ++ [e]) fuel
      (fun e he => hvalid e (mem_cons_of_mem _ he))
      (fun e he => hpassed e (mem_cons_of_mem _ he)) (by simpa using hfuel)
    rw [cons_append, find, next_bytesOf (hvalid e (by simp))]
    simp only [hpassed e mem_cons_self, Bool.false_eq_true, if_false]
    simpa using hrest

/-- A search finds nothing, or stops around the first entry it looks for. -/
theorem find_bytesOf (hvalid : ∀ e ∈ entries, Valid e) :
    (find (bytesOf mirrored entries) mirrored p ((bytesOf mirrored entries).length + 1)
        (startPos (bytesOf mirrored entries) mirrored) = none ∧ ∀ e ∈ entries, p e = false) ∨
      ∃ passed entry coming, entries = passed ++ entry :: coming ∧
        (∀ e ∈ passed, p e = false) ∧ p entry = true ∧
        find (bytesOf mirrored entries) mirrored p ((bytesOf mirrored entries).length + 1)
            (startPos (bytesOf mirrored entries) mirrored) =
          some (edge mirrored passed (entry :: coming),
            edge mirrored (passed ++ [entry]) coming) := by
  rw [startPos_bytesOf]
  cases hfind : entries.find? p with
  | none =>
    have hnone : ∀ e ∈ entries, p e = false := by simpa using hfind
    exact .inl ⟨findFrom_bytesOf_none [] hvalid hnone, hnone⟩
  | some entry =>
    obtain ⟨hp, passed, coming, hsplit, hpassed⟩ := List.find?_eq_some_iff_append.mp hfind
    have hpassed' : ∀ e ∈ passed, p e = false := by simpa using hpassed
    have hlen : passed.length < (bytesOf mirrored entries).length + 1 := by
      have hle := length_le_bytesOf mirrored entries
      rw [hsplit, length_append] at hle
      rw [hsplit]
      omega
    refine .inr ⟨passed, entry, coming, hsplit, hpassed', hp, ?_⟩
    have hfound := findFrom_bytesOf mirrored [] (hsplit ▸ hvalid) hpassed' hp hlen
    rw [hsplit]
    rw [hsplit] at hfound
    exact hfound

end Lists

end AdjBytes

end LoraDb
