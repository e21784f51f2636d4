import Mathlib.Data.String.Basic
import Mathlib.Tactic.Ring

/-!
# Byte Codecs with Length-Prefixed Fields

A small library for binary formats that are written front to back and read through a
cursor. Nothing here belongs to one format: the errors a format reports are a
parameter (`WireErrors`), and so is the type they live in.

* A writer is an `Except ε Bytes`: the bytes it appends, or its error. `writeAll`
  runs writers one after the other.
* A reader is a `ByteReader ε α`: a state transformer over the `Cursor`, which is the
  number of bytes already read together with the bytes still unread.
* A sizer is a function on the running total, `ℕ → Except ε ℕ`; it refuses a total that
  reaches `sizeLimit`.

Four relations tie them together, each with one rule per combinator, so that the walk over
a format is proved by following its definition.

## Main definitions

* `Reads r w x`: in front of any bytes, `r` consumes exactly `w` and returns `x`.
* `Measures f w`: the sizer `f` adds exactly the length of what `w` writes.
* `Yields r P`: whatever `r` returns satisfies `P`.
* `Accepts check r`: `check` succeeds exactly where `r` does, and stops at the same byte.
-/

namespace ByteCodec

open List

/-- A byte string. -/
abbrev Bytes := List UInt8

/-- One past the largest length and offset: a machine word has 64 bits. -/
def sizeLimit : ℕ := 2 ^ 64

/-! ### Little-endian numbers -/

/-- The `k` low bytes of `n`, least significant first. -/
def leBytes : ℕ → ℕ → Bytes
  | 0, _ => []
  | k + 1, n => UInt8.ofNat n :: leBytes k (n / 256)

/-- The number a little-endian byte string denotes. -/
def leNat : Bytes → ℕ
  | [] => 0
  | b :: bs => b.toNat + 256 * leNat bs

@[simp] theorem leBytes_length (k n : ℕ) : (leBytes k n).length = k := by
  induction k generalizing n with
  | zero => rfl
  | succ k ih => simp [leBytes, ih]

/-- A number that fits its field is read back. -/
theorem leNat_leBytes {k n : ℕ} (h : n < 256 ^ k) : leNat (leBytes k n) = n := by
  induction k generalizing n with
  | zero =>
    simp only [pow_zero] at h
    simp only [leBytes, leNat]
    omega
  | succ k ih =>
    have hq : n / 256 < 256 ^ k := by
      rw [pow_succ] at h
      omega
    simp only [leBytes, leNat, ih hq, UInt8.toNat_ofNat']
    omega

/-- A byte string of length `k` denotes a number below `256 ^ k`. -/
theorem leNat_lt (bs : Bytes) : leNat bs < 256 ^ bs.length := by
  induction bs with
  | nil => simp [leNat]
  | cons b bs ih =>
    have hb := b.toNat_lt
    simp only [leNat, length_cons, pow_succ]
    omega

/-! ### Writers -/

/-- The errors a format reports, one field for each **way a primitive can fail**. -/
structure WireErrors (ε : Type) where
  /-- A length does not fit its field. -/
  lenTooBig : ε
  /-- The offset after a field does not fit a machine word. -/
  offsetOverflow : ε
  /-- Fewer bytes are left than the field needs. -/
  truncated : ε
  /-- A text field is not UTF-8. -/
  invalidUtf8 : ε
  /-- A collection declares more elements than bytes are left. -/
  tooMany : String → ℕ → ε

variable {ε α β : Type}

/-- Run writers in order and concatenate what they append. -/
def writeAll : List (Except ε Bytes) → Except ε Bytes
  | [] => .ok []
  | w :: ws => do
    let a ← w
    let b ← writeAll ws
    return a ++ b

/-- Append one byte. -/
def writeByte (b : UInt8) : Except ε Bytes := .ok [b]

/-- Append `n` in `k` little-endian bytes. -/
def writeNat (k n : ℕ) : Except ε Bytes := .ok (leBytes k n)

/-- Append a length as an eight-byte number. -/
def writeCount (E : WireErrors ε) (len : ℕ) : Except ε Bytes :=
  if len < sizeLimit then writeNat 8 len else .error E.lenTooBig

/-- Append a length-prefixed byte string. -/
def writeBlock (E : WireErrors ε) (bytes : Bytes) : Except ε Bytes :=
  writeAll [writeCount E bytes.length, .ok bytes]

/-- The UTF-8 bytes of a text. -/
def utf8 (s : String) : Bytes := s.toByteArray.data.toList

/-- Append a length-prefixed UTF-8 text. -/
def writeText (E : WireErrors ε) (s : String) : Except ε Bytes :=
  writeBlock E (utf8 s)

/-- Append each element in order. -/
def writeEach (write : α → Except ε Bytes) (xs : List α) : Except ε Bytes :=
  writeAll (xs.map write)

/-- A computation that binds succeeds exactly when both halves do. -/
theorem bind_eq_ok {x : Except ε α} {f : α → Except ε β} {b : β} :
    (x >>= f) = .ok b ↔ ∃ a, x = .ok a ∧ f a = .ok b := by
  cases x with
  | error e => simp [bind, Except.bind]
  | ok a => simp [bind, Except.bind]

variable {bs : Bytes}

@[simp] theorem writeAll_nil : writeAll ([] : List (Except ε Bytes)) = .ok bs ↔ bs = [] := by
  simp [writeAll, eq_comm]

variable {w : Except ε Bytes}

/-- What a sequence of writers appends, head first. -/
@[simp] theorem writeAll_cons {ws : List (Except ε Bytes)} :
    writeAll (w :: ws) = .ok bs ↔ ∃ a, w = .ok a ∧ ∃ b, writeAll ws = .ok b ∧ bs = a ++ b := by
  simp only [writeAll, bind_eq_ok, pure, Except.pure, Except.ok.injEq, eq_comm (b := bs)]

/-- A sequence of one writer. -/
theorem writeAll_singleton (w : Except ε Bytes) : writeAll [w] = w := by
  cases w with
  | error e => rfl
  | ok bs => simp [writeAll, bind, Except.bind, pure, Except.pure]

/-- Writing each element is writing the head, then each of the rest. -/
theorem writeEach_cons (write : α → Except ε Bytes) (x : α) (xs : List α) :
    writeEach write (x :: xs) = writeAll [write x, writeEach write xs] := by
  rw [writeAll, writeAll_singleton]
  rfl

theorem writeByte_eq_ok {b : UInt8} : (writeByte b : Except ε Bytes) = .ok bs ↔ bs = [b] := by
  simp [writeByte, eq_comm]

/-- What a writer appends behind a tag. -/
theorem writeAll_tagged {tag : UInt8} (h : writeAll [writeByte tag, w] = .ok bs) :
    ∃ body, w = .ok body ∧ bs = [tag] ++ body := by
  obtain ⟨_, htag, _, hbody, rfl⟩ := writeAll_cons.mp h
  obtain rfl := writeByte_eq_ok.mp htag
  exact ⟨_, writeAll_singleton w ▸ hbody, rfl⟩

theorem writeAll_tagged_two {tag : UInt8} {w' : Except ε Bytes}
    (h : writeAll [writeByte tag, w, w'] = .ok bs) :
    ∃ first second, w = .ok first ∧ w' = .ok second ∧ bs = [tag] ++ (first ++ second) := by
  obtain ⟨_, htag, _, hrest, rfl⟩ := writeAll_cons.mp h
  obtain ⟨_, hfirst, _, hsecond, rfl⟩ := writeAll_cons.mp hrest
  obtain rfl := writeByte_eq_ok.mp htag
  exact ⟨_, _, hfirst, writeAll_singleton w' ▸ hsecond, rfl⟩

theorem writeNat_eq_ok {k n : ℕ} : (writeNat k n : Except ε Bytes) = .ok bs ↔ bs = leBytes k n := by
  simp [writeNat, eq_comm]

variable {E : WireErrors ε}

theorem writeCount_eq_ok {len : ℕ} :
    writeCount E len = .ok bs ↔ len < sizeLimit ∧ bs = leBytes 8 len := by
  unfold writeCount
  split <;> simp_all [writeNat, eq_comm]

theorem writeBlock_eq_ok {bytes bs : Bytes} : writeBlock E bytes = .ok bs ↔
      bytes.length < sizeLimit ∧ bs = leBytes 8 bytes.length ++ bytes := by
  simp [writeBlock, writeCount_eq_ok, and_assoc]

theorem writeText_eq_ok {s : String} : writeText E s = .ok bs ↔
      (utf8 s).length < sizeLimit ∧ bs = leBytes 8 (utf8 s).length ++ utf8 s :=
  writeBlock_eq_ok

/-! ### Readers -/

/-- A position in the input: how many bytes were consumed, and those still unread. -/
structure Cursor where
  consumed : ℕ
  unread : Bytes

/-- A reader that may fail with `ε`. -/
abbrev ByteReader (ε α : Type) := StateT Cursor (Except ε) α

/-- Take exactly `len` bytes. -/
def readExact (E : WireErrors ε) (len : ℕ) : ByteReader ε Bytes := fun c =>
  if sizeLimit ≤ c.consumed + len then .error E.offsetOverflow
  else if c.unread.length < len then .error E.truncated
  else .ok (c.unread.take len, ⟨c.consumed + len, c.unread.drop len⟩)

/-- Pass over exactly `len` bytes. -/
def skip (E : WireErrors ε) (len : ℕ) : ByteReader ε Unit := do
  let _ ← readExact E len
  pure ()

/-- Read one byte. -/
def readByte (E : WireErrors ε) : ByteReader ε UInt8 :=
  (fun bs => bs.headD 0) <$> readExact E 1

/-- Read a `k`-byte little-endian number. -/
def readNat (E : WireErrors ε) (k : ℕ) : ByteReader ε ℕ :=
  leNat <$> readExact E k

/-- The number of unread bytes. -/
def remaining : ByteReader ε ℕ := fun c => .ok (c.unread.length, c)

/-- Fail with `e`. -/
def fail (e : ε) : ByteReader ε α := fun _ => .error e

/-- Read the length of a collection of `label`s, refusing one that cannot fit in what
is left: every element takes at least a byte. -/
def readCount (E : WireErrors ε) (label : String) : ByteReader ε ℕ := do
  let len ← readNat E 8
  let left ← remaining
  if left < len then fail (E.tooMany label len) else pure len

/-- Read a length-prefixed byte string. -/
def readBlock (E : WireErrors ε) : ByteReader ε Bytes := do
  let len ← readNat E 8
  readExact E len

/-- The text a byte string spells in UTF-8. -/
def ofUtf8 (bytes : Bytes) : Option String := String.fromUTF8? ⟨⟨bytes⟩⟩

/-- Read a length-prefixed UTF-8 text. -/
def readText (E : WireErrors ε) : ByteReader ε String := do
  let bytes ← readBlock E
  match ofUtf8 bytes with
  | some s => pure s
  | none => fail E.invalidUtf8

/-- Read a one-byte tag, refusing one that `ofTag` does not know. -/
def readTagged (E : WireErrors ε) (ofTag : UInt8 → Option α) (unknown : UInt8 → ε) :
    ByteReader ε α := do
  let tag ← readByte E
  match ofTag tag with
  | some x => pure x
  | none => fail (unknown tag)

/-- Run a reader `n` times and collect the results. -/
def readTimes (r : ByteReader ε α) : ℕ → ByteReader ε (List α)
  | 0 => pure []
  | n + 1 => do
    let x ← r
    let xs ← readTimes r n
    pure (x :: xs)

/-- Run a check `n` times. -/
def checkTimes (check : ByteReader ε Unit) : ℕ → ByteReader ε Unit
  | 0 => pure ()
  | n + 1 => do
    check
    checkTimes check n

/-- Read a whole byte string, refusing what is left after the value. -/
def readAll (trailing : ℕ → ε) (r : ByteReader ε α) (bytes : Bytes) : Except ε α := do
  let (x, c) ← r ⟨0, bytes⟩
  if c.unread = [] then .ok x else .error (trailing c.unread.length)

@[simp] theorem pure_run (x : α) (c : Cursor) : (pure x : ByteReader ε α) c = .ok (x, c) := rfl

@[simp] theorem fail_run (e : ε) (c : Cursor) : (fail e : ByteReader ε α) c = .error e := rfl

variable {r : ByteReader ε α} {f : α → ByteReader ε β}

/-- A reader sequence succeeds exactly when each step does. -/
theorem bind_run_eq_ok {c : Cursor} {out : β × Cursor} :
    (r >>= f) c = .ok out ↔ ∃ x c', r c = .ok (x, c') ∧ f x c' = .ok out := by
  have hrun : (r >>= f) c = r c >>= fun p => f p.1 p.2 := rfl
  rw [hrun, bind_eq_ok, Prod.exists]

theorem map_run_eq_ok {f : α → β} {c : Cursor} {out : β × Cursor} :
    (f <$> r) c = .ok out ↔ ∃ x c', r c = .ok (x, c') ∧ out = (f x, c') := by
  rw [← bind_pure_comp, bind_run_eq_ok]
  simp [eq_comm]

/-- A successful `readExact` returns as many bytes as asked for. -/
theorem readExact_length {len : ℕ} {c c' : Cursor}
    (h : readExact E len c = .ok (bs, c')) : bs.length = len := by
  unfold readExact at h
  split at h
  · cases h
  split at h
  · cases h
  obtain ⟨rfl, -⟩ := Prod.mk.inj (Except.ok.inj h)
  rw [length_take]
  omega

theorem skip_eq_ok {len : ℕ} {c c' : Cursor} :
    skip E len c = .ok ((), c') ↔ c.consumed + len < sizeLimit ∧ len ≤ c.unread.length ∧
      c' = ⟨c.consumed + len, c.unread.drop len⟩ := by
  simp only [skip, bind_run_eq_ok, readExact, pure_run]
  split
  · simp only [reduceCtorEq, false_and, exists_false, false_iff]
    omega
  split
  · simp only [reduceCtorEq, false_and, exists_false, false_iff]
    omega
  · simp only [Except.ok.injEq, Prod.mk.injEq, true_and]
    constructor
    · rintro ⟨_, _, ⟨-, rfl⟩, rfl⟩
      exact ⟨by omega, by omega, rfl⟩
    · rintro ⟨-, -, rfl⟩
      exact ⟨_, _, ⟨rfl, rfl⟩, rfl⟩

variable {x : α}

/-- Reading a whole input succeeds exactly when the reader stops at its end. -/
theorem readAll_eq_ok {trailing : ℕ → ε} {bytes : Bytes} :
    readAll trailing r bytes = .ok x ↔ ∃ n, r ⟨0, bytes⟩ = .ok (x, ⟨n, []⟩) := by
  simp only [readAll, bind_eq_ok]
  constructor
  · rintro ⟨⟨y, n, unread⟩, hrun, hend⟩
    split at hend
    · next hnil =>
        obtain rfl := Except.ok.inj hend
        simp only at hnil
        subst hnil
        exact ⟨n, hrun⟩
    · cases hend
  · rintro ⟨n, hrun⟩
    exact ⟨_, hrun, by simp⟩

theorem ofUtf8_utf8 (s : String) : ofUtf8 (utf8 s) = some s := by
  have h : (⟨⟨utf8 s⟩⟩ : ByteArray) = s.toByteArray := by simp [utf8]
  rw [ofUtf8, h, String.fromUTF8?, dif_pos s.isValidUTF8]
  rfl

/-! ### A reader that undoes a writer -/

/-- In front of any bytes, `r` consumes exactly `w` and returns `x`, as long as the
offset stays below `sizeLimit`. -/
def Reads (r : ByteReader ε α) (w : Bytes) (x : α) : Prop :=
  ∀ c rest, c + w.length < sizeLimit → r ⟨c, w ++ rest⟩ = .ok (x, ⟨c + w.length, rest⟩)

theorem Reads.pure (x : α) : Reads (pure x : ByteReader ε α) [] x := by
  intro c rest _
  rfl

/-- Sequencing: the second reader starts where the first one stopped. -/
theorem Reads.bind {w w' : Bytes}
    {y : β} (hr : Reads r w x) (hf : Reads (f x) w' y) : Reads (r >>= f) (w ++ w') y := by
  intro c rest hlt
  rw [length_append] at hlt
  have hfirst := hr c (w' ++ rest) (by omega)
  have hsecond := hf (c + w.length) rest (by omega)
  simp only [append_assoc, length_append, ← Nat.add_assoc]
  exact bind_run_eq_ok.mpr ⟨_, _, hfirst, hsecond⟩

/-- Sequencing with a last step that reads nothing. -/
theorem Reads.bind_last {w : Bytes}
    {y : β} (hr : Reads r w x) (hf : Reads (f x) [] y) : Reads (r >>= f) w y := by
  simpa using hr.bind hf

theorem Reads.map {w : Bytes} (hr : Reads r w x) (f : α → β) : Reads (f <$> r) w (f x) := by
  intro c rest hlt
  exact map_run_eq_ok.mpr ⟨_, _, hr c rest hlt, rfl⟩

theorem Reads.exact (E : WireErrors ε) (w : Bytes) : Reads (readExact E w.length) w w := by
  intro c rest hlt
  have h₁ : ¬ sizeLimit ≤ c + w.length := by omega
  have h₂ : ¬ (w ++ rest).length < w.length := by simp
  simp only [readExact, if_neg h₁, if_neg h₂, take_left, drop_left]

theorem Reads.byte (E : WireErrors ε) (b : UInt8) : Reads (readByte E) [b] b :=
  (Reads.exact E [b]).map _

theorem Reads.nat (E : WireErrors ε) {k n : ℕ} (h : n < 256 ^ k) :
    Reads (readNat E k) (leBytes k n) n := by
  have hr := (Reads.exact E (leBytes k n)).map leNat
  rwa [leNat_leBytes h, leBytes_length] at hr

theorem sizeLimit_eq : sizeLimit = 256 ^ 8 := by decide

/-- A bounded count is read back when its elements, one byte each at least, follow. -/
theorem Reads.count_bind (E : WireErrors ε) {label : String} {n : ℕ} {w : Bytes}
    {f : ℕ → ByteReader ε β} {y : β} (hle : n ≤ w.length) (hlt : n < sizeLimit)
    (hf : Reads (f n) w y) : Reads (readCount E label >>= f) (leBytes 8 n ++ w) y := by
  intro c rest hc
  simp only [length_append, leBytes_length] at hc
  have hn : n < 256 ^ 8 := by rwa [← sizeLimit_eq]
  have hlen := Reads.nat E hn c (w ++ rest) (by rw [leBytes_length]; omega)
  have hrest := hf (c + 8) rest (by omega)
  rw [leBytes_length] at hlen
  refine bind_run_eq_ok.mpr ⟨n, ⟨c + 8, w ++ rest⟩, ?_, ?_⟩
  · rw [readCount, append_assoc]
    refine bind_run_eq_ok.mpr ⟨_, _, hlen, ?_⟩
    refine bind_run_eq_ok.mpr ⟨_, _, rfl, ?_⟩
    have hfit : ¬ (w ++ rest).length < n := by
      rw [length_append]
      omega
    simp only [if_neg hfit, pure_run]
  · rw [hrest, length_append, leBytes_length, Nat.add_assoc]

theorem Reads.block (E : WireErrors ε) {bytes : Bytes} (hlt : bytes.length < sizeLimit) :
    Reads (readBlock E) (leBytes 8 bytes.length ++ bytes) bytes :=
  (Reads.nat E (by rwa [← sizeLimit_eq])).bind (Reads.exact E bytes)

theorem Reads.text (E : WireErrors ε) {s : String} (hlt : (utf8 s).length < sizeLimit) :
    Reads (readText E) (leBytes 8 (utf8 s).length ++ utf8 s) s := by
  refine (Reads.block E hlt).bind_last ?_
  rw [ofUtf8_utf8]
  exact Reads.pure s

/-- A fixed-width number is read back through any function that restores it. -/
theorem Reads.of_writeNat {k n : ℕ} {f : ℕ → α}
    (hlt : n < 2 ^ (8 * k)) (hf : f n = x) (h : (writeNat k n : Except ε Bytes) = .ok bs) :
    Reads (f <$> readNat E k) bs x := by
  obtain rfl := writeNat_eq_ok.mp h
  rw [pow_mul] at hlt
  rw [← hf]
  exact (Reads.nat E hlt).map f

/-- What `writeText` appends is read back. -/
theorem Reads.of_writeText {E F : WireErrors ε} {s : String}
    (h : writeText E s = .ok bs) : Reads (readText F) bs s := by
  obtain ⟨hlt, rfl⟩ := writeText_eq_ok.mp h
  exact Reads.text F hlt

/-- What `writeBlock` appends is read back. -/
theorem Reads.of_writeBlock {E F : WireErrors ε} {bytes bs : Bytes}
    (h : writeBlock E bytes = .ok bs) : Reads (readBlock F) bs bytes := by
  obtain ⟨hlt, rfl⟩ := writeBlock_eq_ok.mp h
  exact Reads.block F hlt

theorem Reads.tagged (E : WireErrors ε) {ofTag : UInt8 → Option α} {unknown : UInt8 → ε}
    {tag : UInt8} (h : ofTag tag = some x) :
    Reads (readTagged E ofTag unknown) [tag] x := by
  refine (Reads.byte E tag).bind_last ?_
  rw [h]
  exact Reads.pure x

/-- A reader that undoes the writer of the whole input. -/
theorem Reads.readAll {w : Bytes} (h : Reads r w x)
    (hlt : w.length < sizeLimit) (trailing : ℕ → ε) :
    ByteCodec.readAll trailing r w = .ok x := by
  have hrun := h 0 [] (by omega)
  rw [append_nil] at hrun
  exact readAll_eq_ok.mpr ⟨_, hrun⟩

variable {write : α → Except ε Bytes}

/-- Elements of at least `m` bytes each take at least `m` times their number. -/
theorem writeEach_length {m : ℕ} {xs : List α} (h : ∀ x ∈ xs, ∀ w, write x = .ok w → m ≤ w.length)
    (hw : writeEach write xs = .ok bs) : m * xs.length ≤ bs.length := by
  induction xs generalizing bs with
  | nil => simp
  | cons x xs ih =>
    obtain ⟨a, ha, b, hb, rfl⟩ := writeAll_cons.mp hw
    have hx := h x (by simp) a ha
    have hxs := ih (fun y hy => h y (by simp [hy])) hb
    simp only [length_cons, length_append, Nat.mul_succ]
    omega

/-- Elements written one after the other are collected back. -/
theorem Reads.times {xs : List α} (h : ∀ x ∈ xs, ∀ w, write x = .ok w → Reads r w x)
    (hw : writeEach write xs = .ok bs) : Reads (readTimes r xs.length) bs xs := by
  induction xs generalizing bs with
  | nil =>
    obtain rfl := writeAll_nil.mp hw
    exact Reads.pure []
  | cons x xs ih =>
    obtain ⟨a, ha, b, hb, rfl⟩ := writeAll_cons.mp hw
    have hx := h x (by simp) a ha
    have hxs := ih (fun y hy => h y (by simp [hy])) hb
    exact hx.bind (hxs.bind_last (Reads.pure _))

/-- A collection: its length, then its elements of a byte each at least. -/
theorem Reads.collection {E F : WireErrors ε} {label : String}
    {xs : List α} {k : List α → ByteReader ε β} {y : β}
    (hread : ∀ x ∈ xs, ∀ w, write x = .ok w → Reads r w x)
    (hlen : ∀ x ∈ xs, ∀ w, write x = .ok w → 1 ≤ w.length) (hk : Reads (k xs) [] y)
    (hw : writeAll [writeCount E xs.length, writeEach write xs] = .ok bs) :
    Reads (readCount F label >>= fun len => readTimes r len >>= k) bs y := by
  obtain ⟨_, hcount, each, heach, rfl⟩ := writeAll_cons.mp hw
  obtain ⟨hlt, rfl⟩ := writeCount_eq_ok.mp hcount
  rw [writeAll_singleton] at heach
  have hfit := writeEach_length hlen heach
  exact Reads.count_bind F (by omega) hlt ((Reads.times hread heach).bind_last hk)

/-! ### A sizer that measures a writer -/

/-- Add `n` to the running total, refusing a total that reaches `sizeLimit`. -/
def addSize (e : ε) (n size : ℕ) : Except ε ℕ :=
  if size + n < sizeLimit then .ok (size + n) else .error e

/-- Add the size of each element in order. -/
def sizeEach (sizeOf : α → ℕ → Except ε ℕ) : List α → ℕ → Except ε ℕ
  | [], size => .ok size
  | x :: xs, size => do
    let size ← sizeOf x size
    sizeEach sizeOf xs size

/-- The sizer `f` succeeds exactly when the writer `w` does and the new total stays
below `sizeLimit`; it adds the number of bytes `w` appends. -/
def Measures (f : ℕ → Except ε ℕ) (w : Except ε Bytes) : Prop :=
  ∀ size size', size < sizeLimit →
    (f size = .ok size' ↔ ∃ bs, w = .ok bs ∧ size' = size + bs.length ∧ size' < sizeLimit)

theorem addSize_eq_ok {e : ε} {n size size' : ℕ} :
    addSize e n size = .ok size' ↔ size' = size + n ∧ size' < sizeLimit := by
  unfold addSize
  split
  · simp only [Except.ok.injEq]
    omega
  · simp only [reduceCtorEq, false_iff]
    omega

/-- A writer of a known number of bytes. -/
theorem Measures.add (e : ε) {n : ℕ}
    (h : ∃ bs, w = .ok bs ∧ bs.length = n) : Measures (addSize e n) w := by
  obtain ⟨bs, rfl, rfl⟩ := h
  intro size size' _
  simp [addSize_eq_ok]

theorem Measures.none : Measures (fun size => (.ok size : Except ε ℕ)) (writeAll []) := by
  intro size size' hlt
  simp only [Except.ok.injEq, writeAll_nil, exists_eq_left, length_nil]
  omega

/-- Sequencing: sizing the head and then the tail sizes the whole sequence. -/
theorem Measures.cons {f g : ℕ → Except ε ℕ}
    {ws : List (Except ε Bytes)} (hf : Measures f w) (hg : Measures g (writeAll ws)) :
    Measures (fun size => f size >>= g) (writeAll (w :: ws)) := by
  intro size size' hlt
  simp only [bind_eq_ok, writeAll_cons]
  constructor
  · rintro ⟨mid, hmid, hend⟩
    obtain ⟨a, ha, rfl, hlt'⟩ := (hf _ _ hlt).mp hmid
    obtain ⟨b, hb, rfl, hend'⟩ := (hg _ _ hlt').mp hend
    exact ⟨a ++ b, ⟨a, ha, b, hb, rfl⟩, by simp [Nat.add_assoc], hend'⟩
  · rintro ⟨_, ⟨a, ha, b, hb, rfl⟩, rfl, hend⟩
    rw [length_append, ← Nat.add_assoc] at hend ⊢
    have hmid : size + a.length < sizeLimit := by omega
    exact ⟨_, (hf _ _ hlt).mpr ⟨a, ha, rfl, hmid⟩, (hg _ _ hmid).mpr ⟨b, hb, rfl, hend⟩⟩

/-- A sequence of one writer. -/
theorem Measures.last {f : ℕ → Except ε ℕ} (hf : Measures f w) : Measures f (writeAll [w]) := by
  rwa [writeAll_singleton]

theorem Measures.each {sizeOf : α → ℕ → Except ε ℕ}
    {xs : List α} (h : ∀ x ∈ xs, Measures (sizeOf x) (write x)) :
    Measures (sizeEach sizeOf xs) (writeEach write xs) := by
  induction xs with
  | nil => exact Measures.none
  | cons x xs ih =>
    have hx := h x (by simp)
    have hxs := ih (fun y hy => h y (by simp [hy]))
    exact hx.cons hxs

/-! ### What a reader can return -/

/-- Whatever `r` returns satisfies `P`. -/
def Yields (r : ByteReader ε α) (P : α → Prop) : Prop :=
  ∀ c x c', r c = .ok (x, c') → P x

variable {P : α → Prop}

theorem Yields.pure (h : P x) : Yields (pure x : ByteReader ε α) P := by
  rintro c y c' heq
  simp only [pure_run, Except.ok.injEq, Prod.mk.injEq] at heq
  rwa [← heq.1]

theorem Yields.fail {e : ε} : Yields (fail e : ByteReader ε α) P := by
  rintro c x c' heq
  simp at heq

theorem Yields.readAll (hr : Yields r P) {trailing : ℕ → ε} {bytes : Bytes}
    (h : ByteCodec.readAll trailing r bytes = .ok x) : P x := by
  obtain ⟨n, hrun⟩ := readAll_eq_ok.mp h
  exact hr _ _ _ hrun

/-- Every reader returns something. -/
theorem Yields.any (r : ByteReader ε α) : Yields r (fun _ => True) :=
  fun _ _ _ _ => trivial

theorem Yields.mono {P Q : α → Prop} (hr : Yields r P) (h : ∀ x, P x → Q x) : Yields r Q :=
  fun c x c' heq => h x (hr c x c' heq)

theorem Yields.bind {Q : β → Prop} (hr : Yields r P) (hf : ∀ x, P x → Yields (f x) Q) :
    Yields (r >>= f) Q := by
  intro c y c' heq
  obtain ⟨x, mid, hx, hy⟩ := bind_run_eq_ok.mp heq
  exact hf x (hr _ _ _ hx) _ _ _ hy

/-- Sequencing after a reader of which nothing need be known. -/
theorem Yields.after {Q : β → Prop} (hf : ∀ x, Yields (f x) Q) : Yields (r >>= f) Q :=
  (Yields.any r).bind fun x _ => hf x

theorem Yields.map {f : α → β} {Q : β → Prop} (h : ∀ x, Q (f x)) : Yields (f <$> r) Q := by
  rw [← bind_pure_comp]
  exact Yields.after fun x => Yields.pure (h x)

theorem Yields.times (hr : Yields r P) (n : ℕ) :
    Yields (readTimes r n) (fun xs => xs.length = n ∧ ∀ x ∈ xs, P x) := by
  induction n with
  | zero => exact Yields.pure (by simp)
  | succ n ih =>
    refine hr.bind fun x hx => ih.bind fun xs hxs => Yields.pure ?_
    simp [hx, hxs.1]
    exact hxs.2

/-! ### A check that reads without building -/

/-- `check` succeeds exactly where `r` does, and stops at the same byte. -/
def Accepts (check : ByteReader ε Unit) (r : ByteReader ε α) : Prop :=
  ∀ c c', check c = .ok ((), c') ↔ ∃ x, r c = .ok (x, c')

theorem Accepts.pure (x : α) : Accepts (pure () : ByteReader ε Unit) (pure x) := by
  intro c c'
  simp

/-- A check may run the reader itself and drop the result. -/
theorem Accepts.drop (r : ByteReader ε α) : Accepts (r >>= fun _ => Pure.pure ()) r := by
  intro c c'
  simp only [bind_run_eq_ok, pure_run, Except.ok.injEq, Prod.mk.injEq, true_and]
  constructor
  · rintro ⟨x, _, hx, rfl⟩
    exact ⟨x, hx⟩
  · rintro ⟨x, hx⟩
    exact ⟨x, c', hx, rfl⟩

theorem Accepts.bind {check check' : ByteReader ε Unit}
    (hr : Accepts check r) (hf : ∀ x, Accepts check' (f x)) :
    Accepts (check >>= fun _ => check') (r >>= f) := by
  intro c c'
  simp only [bind_run_eq_ok]
  constructor
  · rintro ⟨⟨⟩, mid, hmid, hend⟩
    obtain ⟨x, hx⟩ := (hr c mid).mp hmid
    obtain ⟨y, hy⟩ := (hf x mid c').mp hend
    exact ⟨y, x, mid, hx, hy⟩
  · rintro ⟨y, x, mid, hx, hy⟩
    exact ⟨(), mid, (hr c mid).mpr ⟨x, hx⟩, (hf x mid c').mpr ⟨y, hy⟩⟩

/-- Both sides read the same field first. -/
theorem Accepts.bind_same {g : α → ByteReader ε Unit} (h : ∀ x, Accepts (g x) (f x)) :
    Accepts (r >>= g) (r >>= f) := by
  intro c c'
  simp only [bind_run_eq_ok]
  constructor
  · rintro ⟨x, mid, hx, hend⟩
    obtain ⟨y, hy⟩ := (h x mid c').mp hend
    exact ⟨y, x, mid, hx, hy⟩
  · rintro ⟨y, x, mid, hx, hy⟩
    exact ⟨x, mid, hx, (h x mid c').mpr ⟨y, hy⟩⟩

/-- Building a value out of what was read does not change what is accepted. -/
theorem Accepts.map {check : ByteReader ε Unit} (h : Accepts check r)
    (f : α → β) : Accepts check (f <$> r) := by
  intro c c'
  rw [h c c']
  simp only [map_run_eq_ok, Prod.mk.injEq]
  constructor
  · rintro ⟨x, hx⟩
    exact ⟨f x, x, c', hx, rfl, rfl⟩
  · rintro ⟨_, x, _, hx, rfl, rfl⟩
    exact ⟨x, hx⟩

theorem Accepts.bind_pure {check : ByteReader ε Unit} (h : Accepts check r) (f : α → β) :
    Accepts check (r >>= fun x => Pure.pure (f x)) := by
  rw [bind_pure_comp]
  exact h.map f

theorem Accepts.fail (e : ε) : Accepts (fail e : ByteReader ε Unit) (fail e : ByteReader ε α) := by
  intro c c'
  simp

theorem Accepts.times {check : ByteReader ε Unit}
    (h : Accepts check r) (n : ℕ) : Accepts (checkTimes check n) (readTimes r n) := by
  induction n with
  | zero => exact Accepts.pure []
  | succ n ih => exact h.bind fun x => ih.bind_pure _

/-- Skipping `m + n` bytes is skipping `m` bytes and then `n`. -/
theorem skip_add_eq_ok {m n : ℕ} {c c' : Cursor} : skip E (m + n) c = .ok ((), c') ↔
      ∃ mid, skip E m c = .ok ((), mid) ∧ skip E n mid = .ok ((), c') := by
  simp only [skip_eq_ok]
  constructor
  · rintro ⟨hlt, hle, rfl⟩
    refine ⟨_, ⟨by omega, by omega, rfl⟩, by simp only; omega, ?_, ?_⟩
    · simp only [length_drop]
      omega
    · simp [Nat.add_assoc]
  · rintro ⟨mid, ⟨hlt, hle, rfl⟩, hlt', hle', rfl⟩
    simp only [length_drop] at hlt' hle'
    exact ⟨by omega, by omega, by simp [Nat.add_assoc]⟩

/-- Skipping `m + n` bytes checks a field of `m` bytes and what follows it. -/
theorem Accepts.skip_add {m n : ℕ} {k : ByteReader ε Unit} (hr : Accepts (skip E m) r)
    (hf : ∀ x, Accepts (skip E n >>= fun _ => k) (f x)) :
    Accepts (skip E (m + n) >>= fun _ => k) (r >>= f) := by
  have hsplit : Accepts (skip E m >>= fun _ => skip E n >>= fun _ => k) (r >>= f) :=
    hr.bind hf
  intro c c'
  rw [← hsplit c c']
  simp only [bind_run_eq_ok]
  constructor
  · rintro ⟨⟨⟩, last, hskip, hk⟩
    obtain ⟨mid, hmid, hlast⟩ := skip_add_eq_ok.mp hskip
    exact ⟨(), mid, hmid, (), last, hlast, hk⟩
  · rintro ⟨⟨⟩, mid, hmid, ⟨⟩, last, hlast, hk⟩
    exact ⟨(), last, skip_add_eq_ok.mpr ⟨mid, hmid, hlast⟩, hk⟩

/-- Skipping the bytes of a number checks any reader of that number. -/
theorem Accepts.skip_nat (E : WireErrors ε) (k : ℕ) (f : ℕ → α) :
    Accepts (skip E k) (f <$> readNat E k) :=
  ((Accepts.drop (readExact E k)).map leNat).map f

end ByteCodec
