import LoraDb.SortedMap

/-!
# Blocks of Packed Keys

Neighbouring string keys share one block: their common start once, then the rest of every key,
with an end offset and its ids. Lengths and offsets are `u32`.

## Main results

* `Packs`: the keys and ids a block holds.
* `Packs.search`: a search says where a key is, or where it would go.
* `Packs.insertAt`, `Packs.removeAt`, `Packs.splitOff`: what the edits of a block do to its
  keys.
-/

open Prod (fst snd)
open List

namespace LoraDb

namespace StrIndex

abbrev Byte := Fin 256

/-- A string key, as the bytes of its text. -/
abbrev Key := List Byte

/-- The ids of a key, ascending. -/
abbrev IdSet := List ℕ

namespace IdSet

def insert (set : IdSet) (id : ℕ) : IdSet :=
  if id ∈ set then set else set.orderedInsert (· ≤ ·) id

/-- Remove an id; says whether the set is now empty. -/
def remove (set : IdSet) (id : ℕ) : IdSet × Bool := (set.erase id, (set.erase id).isEmpty)

end IdSet

/-- A length or an offset as a `u32`. -/
def u32 (n : ℕ) : ℕ := n % 2 ^ 32

/-- Keys a block may hold before it splits. -/
def BLOCK_MAX : ℕ := 64

/-- Up to `BLOCK_MAX` neighbouring keys and their ids, in key order: the common start and the
rest of each key, with the end of each rest. -/
structure StrBlock where
  bytes : List Byte
  common : ℕ
  ends : List ℕ
  ids : List IdSet

/-- Length of the common start of two keys. -/
def commonPrefix : Key → Key → ℕ
  | x :: a, y :: b => if x = y then commonPrefix a b + 1 else 0
  | _, _ => 0

namespace StrBlock

/-- The common start of ascending keys; one key is all of it. -/
def commonOf : List Key → ℕ
  | [] => 0
  | [only] => only.length
  | first :: second :: keys => commonPrefix first ((second :: keys).getLast (by simp))

/-- Where each rest ends, from `start` on. -/
def offsets (start : ℕ) : List Key → List ℕ
  | [] => []
  | rest :: rests => u32 (start + rest.length) :: offsets (start + rest.length) rests

/-- A block of a common start and the rests behind it. -/
def ofRests (start : Key) (rests : List Key) (ids : List IdSet) : StrBlock :=
  ⟨start ++ rests.flatten, u32 start.length, offsets start.length rests, ids⟩

/-- A block of keys, strictly ascending, and their ids. -/
def packed (keys : List Key) (ids : List IdSet) : StrBlock :=
  let common := commonOf keys
  ofRests ((keys.head?.getD []).take common) (keys.map (·.drop common)) ids

/-- Bytes of keys packed together. -/
def packedSize (keys : List Key) : ℕ :=
  commonOf keys + (keys.map (·.drop (commonOf keys))).flatten.length

def len (b : StrBlock) : ℕ := b.ends.length

def start (b : StrBlock) : Key := b.bytes.take b.common

/-- Where the rest of key `i` starts. -/
def startOf (b : StrBlock) (i : ℕ) : ℕ := if i = 0 then b.common else b.ends.getD (i - 1) 0

/-- The rest of key `i`. -/
def suffix (b : StrBlock) (i : ℕ) : Key :=
  (b.bytes.drop (b.startOf i)).take (b.ends.getD i 0 - b.startOf i)

/-- Key `i` whole. -/
def key (b : StrBlock) (i : ℕ) : Key := b.start ++ b.suffix i

def idsOf (b : StrBlock) (i : ℕ) : IdSet := b.ids.getD i []

/-- The halving of a search between `lo` and `hi`; it takes a step for every key at most. -/
def searchFrom (b : StrBlock) (rest : Key) : ℕ → ℕ → ℕ → ℕ ⊕ ℕ
  | 0, lo, _ => .inr lo
  | fuel + 1, lo, hi =>
    if lo < hi then
      let mid := (lo + hi) / 2
      if b.suffix mid < rest then b.searchFrom rest fuel (mid + 1) hi
      else if rest < b.suffix mid then b.searchFrom rest fuel lo mid
      else .inl mid
    else .inr lo

/-- Where a key is, or where it would go. -/
def search (b : StrBlock) (key : Key) : ℕ ⊕ ℕ :=
  if b.start.isPrefixOf key then
    b.searchFrom (key.drop b.start.length) (b.len + 1) 0 b.len
  else .inr (if key < b.start then 0 else b.len)

/-- Keep only `n` bytes of the common start, the rest of it moves into every key's rest. -/
def shortenPrefix (b : StrBlock) (n : ℕ) : StrBlock :=
  let keys := (range b.len).map b.key
  ofRests (b.bytes.take n) (keys.map (·.drop n)) b.ids

/-- Insert a key where its search said. -/
def insertAt (b : StrBlock) (pos : ℕ) (key : Key) (ids : IdSet) : StrBlock :=
  let b := if b.start.isPrefixOf key then b else b.shortenPrefix (commonPrefix b.start key)
  let rest := key.drop b.common
  let start := b.startOf pos
  let ends := b.ends.take pos ++ (b.ends.drop pos).map fun e => u32 (e + u32 rest.length)
  { b with
    bytes := b.bytes.take start ++ (rest ++ b.bytes.drop start)
    ends := ends.insertIdx pos (u32 (start + rest.length))
    ids := b.ids.insertIdx pos ids }

def removeAt (b : StrBlock) (pos : ℕ) : StrBlock :=
  let start := b.startOf pos
  let stop := b.ends.getD pos 0
  let ends := b.ends.eraseIdx pos
  { b with
    bytes := b.bytes.take start ++ b.bytes.drop stop
    ends := ends.take pos ++ (ends.drop pos).map fun e => u32 (e + 2 ^ 32 - u32 (stop - start))
    ids := b.ids.eraseIdx pos }

/-- Move the keys from `pos` on into a block of their own; both are packed anew. -/
def splitOff (b : StrBlock) (pos : ℕ) : StrBlock × StrBlock :=
  let keys := (range b.len).map b.key
  (packed (keys.take pos) (b.ids.take pos), packed (keys.drop pos) (b.ids.drop pos))

end StrBlock

/-! ### Keys with a common start -/

section Order

variable {a b c p s t : Key}

theorem append_lt_append_iff : p ++ s < p ++ t ↔ s < t := by
  induction p with
  | nil => rfl
  | cons x p ih =>
    rw [cons_append, cons_append, cons_lt_cons_iff]
    simp [ih]

theorem startsWith_iff : p.isPrefixOf a = true ↔ p <+: a :=
  isPrefixOf_iff_prefix

theorem take_start (n : ℕ) (a : Key) : a.take n <+: a :=
  take_prefix n a

@[simp] theorem commonPrefix_nil (b : Key) : commonPrefix [] b = 0 := by
  cases b <;> rfl

theorem commonPrefix_cons (x y : Byte) (a b : Key) :
    commonPrefix (x :: a) (y :: b) = if x = y then commonPrefix a b + 1 else 0 := rfl

theorem commonPrefix_le_left (a b : Key) : commonPrefix a b ≤ a.length := by
  induction a generalizing b with
  | nil => exact Nat.le_refl _
  | cons x a ih =>
    cases b with
    | nil => exact Nat.zero_le _
    | cons y b =>
      rw [commonPrefix_cons]
      split_ifs
      · exact Nat.succ_le_succ (ih b)
      · exact Nat.zero_le _

theorem commonPrefix_of_start (h : p <+: a) : commonPrefix p a = p.length := by
  obtain ⟨s, rfl⟩ := h
  induction p with
  | nil => exact commonPrefix_nil _
  | cons x p ih => rw [cons_append, commonPrefix_cons, if_pos rfl, ih, length_cons]

theorem le_commonPrefix (ha : p <+: a) (hb : p <+: b) : p.length ≤ commonPrefix a b := by
  obtain ⟨s, rfl⟩ := ha
  obtain ⟨t, rfl⟩ := hb
  induction p with
  | nil => exact Nat.zero_le _
  | cons x p ih =>
    rw [cons_append, cons_append, commonPrefix_cons, if_pos rfl]
    exact Nat.succ_le_succ ih

theorem take_commonPrefix (a b : Key) : a.take (commonPrefix a b) = b.take (commonPrefix a b) := by
  induction a generalizing b with
  | nil => simp
  | cons x a ih =>
    cases b with
    | nil => rfl
    | cons y b =>
      rw [commonPrefix_cons]
      split_ifs with hxy
      · rw [take_succ_cons, take_succ_cons, hxy, ih b]
      · rfl

/-- Between two keys with a common start every key has that start. -/
theorem take_of_between {n : ℕ} (hac : a.take n = c.take n) (hn : n ≤ a.length) (hab : a ≤ b)
    (hbc : b ≤ c) : b.take n = a.take n := by
  induction n generalizing a b c with
  | zero => rfl
  | succ n ih =>
    cases a with
    | nil => simp at hn
    | cons x a =>
      cases c with
      | nil => simp at hac
      | cons z c =>
        rw [take_succ_cons, take_succ_cons, cons_eq_cons] at hac
        obtain ⟨rfl, hac⟩ := hac
        cases b with
        | nil => exact absurd (List.nil_lt_cons x a) (not_lt.mpr hab)
        | cons y b =>
          rw [← not_lt, cons_lt_cons_iff, not_or] at hab hbc
          have hxy : y = x := le_antisymm (not_lt.mp hbc.1) (not_lt.mp hab.1)
          subst hxy
          have hab' : a ≤ b := not_lt.mp fun hlt => hab.2 ⟨rfl, hlt⟩
          have hbc' : b ≤ c := not_lt.mp fun hlt => hbc.2 ⟨rfl, hlt⟩
          rw [take_succ_cons, take_succ_cons, ih hac (Nat.le_of_succ_le_succ hn) hab' hbc']

/-- A key that does not start with `p` is before all keys that do, or after them all. -/
theorem lt_append_of_start (hstart : ¬ p <+: a) : (a < p ↔ a < p ++ s) ∧ a ≠ p ++ s := by
  refine ⟨⟨?_, ?_⟩, fun heq => hstart ⟨s, heq.symm⟩⟩
  · intro hlt
    exact hlt.trans_le (not_lt.mp fun hgt => by
      have hself : p ++ s < p ++ [] := by rwa [append_nil]
      rw [append_lt_append_iff] at hself
      exact List.not_lt_nil _ hself)
  · intro hlt
    induction p generalizing a with
    | nil => exact absurd ⟨a, nil_append a⟩ hstart
    | cons x p ih =>
      cases a with
      | nil => exact List.nil_lt_cons x p
      | cons y a =>
        rw [cons_append, cons_lt_cons_iff] at hlt
        rw [cons_lt_cons_iff]
        rcases hlt with hlt | ⟨rfl, hlt⟩
        · exact .inl hlt
        · exact .inr ⟨rfl, ih (fun hp => hstart ((prefix_cons_inj y).mpr hp)) hlt⟩

end Order

/-- The common start of sorted keys is everyone's. -/
theorem commonOf_le (first : Key) (keys : List Key) :
    StrBlock.commonOf (first :: keys) ≤ first.length := by
  cases keys with
  | nil => exact Nat.le_refl _
  | cons second keys => exact commonPrefix_le_left _ _

theorem commonOf_start {first : Key × IdSet} {rest : List (Key × IdSet)} {e : Key × IdSet}
    (hsorted : (first :: rest).Pairwise fun e e' => e.1 ≤ e'.1) (he : e ∈ first :: rest) :
    e.1.take (StrBlock.commonOf ((first :: rest).map fst)) =
      first.1.take (StrBlock.commonOf ((first :: rest).map fst)) := by
  cases rest with
  | nil => rw [mem_singleton.mp he]
  | cons second rest =>
    have hmem : ∀ e ∈ second :: rest, first.1 ≤ e.1 := (pairwise_cons.mp hsorted).1
    have hlast : ∀ e ∈ second :: rest, e.1 ≤ ((second :: rest).map fst).getLast (by simp) := by
      intro e he
      rw [getLast_map]
      have hsplit := dropLast_append_getLast (cons_ne_nil second rest)
      have hpair := (pairwise_cons.mp hsorted).2
      rw [← hsplit] at he hpair
      rcases mem_append.mp he with he | he
      · exact (pairwise_append.mp hpair).2.2 e he _ (mem_singleton.mpr rfl)
      · rw [mem_singleton.mp he]
    rcases mem_cons.mp he with rfl | he
    · rfl
    · exact take_of_between (take_commonPrefix _ _) (commonPrefix_le_left _ _)
        (hmem e he) (hlast e he)

theorem le_commonOf {p : Key} {es : List (Key × IdSet)} (hes : es ≠ [])
    (hcommon : ∀ e ∈ es, p <+: e.1) : p.length ≤ StrBlock.commonOf (es.map fst) := by
  match es with
  | [only] => exact (hcommon only mem_cons_self).length_le
  | first :: second :: rest =>
    have hlast : ∀ e ∈ (second :: rest).map fst, p <+: e := by
      intro key hkey
      obtain ⟨e, he, rfl⟩ := mem_map.mp hkey
      exact hcommon e (mem_cons_of_mem _ he)
    exact le_commonPrefix (hcommon first mem_cons_self) (hlast _ (getLast_mem _))

theorem flatten_drop_le (keys : List Key) {m n : ℕ} (hmn : m ≤ n) :
    (keys.map (·.drop n)).flatten.length ≤ (keys.map (·.drop m)).flatten.length := by
  induction keys with
  | nil => exact Nat.le_refl _
  | cons key keys ih =>
    simp only [map_cons, flatten_cons, length_append, length_drop] at ih ⊢
    omega

/-- Packed by their whole common start, keys take no more bytes than by another. -/
theorem packedSize_lt {p : Key} {es : List (Key × IdSet)} (hcommon : ∀ e ∈ es, p <+: e.1)
    (hroom : p.length + (es.map fun e => e.1.drop p.length).flatten.length < 2 ^ 32) :
    StrBlock.packedSize (es.map fst) < 2 ^ 32 := by
  cases es with
  | nil => exact Nat.two_pow_pos 32
  | cons first rest =>
    have hle := le_commonOf (cons_ne_nil first rest) hcommon
    have hfirst := commonOf_le first.1 (rest.map fst)
    have hrest := flatten_drop_le (rest.map fst) hle
    have hmap : (rest.map fun e => e.1.drop p.length) =
        (rest.map fst).map (·.drop p.length) := by rw [map_map]; rfl
    rw [map_cons, flatten_cons, length_append, length_drop, hmap] at hroom
    rw [StrBlock.packedSize, map_cons, map_cons, flatten_cons, length_append, length_drop]
    rw [map_cons] at hle hrest
    omega

/-! ### What a block holds -/

/-- The keys and ids of a block. -/
def StrBlock.entries (b : StrBlock) : List (Key × IdSet) :=
  (range b.len).map fun i => (b.key i, b.idsOf i)

/-- Bytes of the block, were it to hold `key` too. -/
def StrBlock.grown (b : StrBlock) (key : Key) : ℕ :=
  let n := commonPrefix b.start key
  n + ((key :: (range b.len).map b.key).map (·.drop n)).flatten.length

/-- A block that holds entries by a start `p` common to them. -/
structure Packs (b : StrBlock) (p : Key) (es : List (Key × IdSet)) : Prop where
  common : ∀ e ∈ es, p <+: e.1
  eq : b = .ofRests p (es.map fun e => e.1.drop p.length) (es.map snd)
  small : p.length + (es.map fun e => e.1.drop p.length).flatten.length < 2 ^ 32

theorem insertIdx_at {α : Type} {as bs : List α} {a : α} {n : ℕ} (hn : n = as.length) :
    (as ++ bs).insertIdx n a = as ++ a :: bs := by
  subst hn
  induction as with
  | nil => rfl
  | cons x as ih => simp [ih]

theorem eraseIdx_at {α : Type} {as bs : List α} {a : α} {n : ℕ} (hn : n = as.length) :
    (as ++ a :: bs).eraseIdx n = as ++ bs := by
  subst hn
  induction as with
  | nil => rfl
  | cons x as ih => simp [ih]

section Offsets

variable {start i n : ℕ} {rests xs ys : List Key}

theorem u32_of_lt (h : n < 2 ^ 32) : u32 n = n := Nat.mod_eq_of_lt h

theorem offsets_append (start : ℕ) (xs ys : List Key) : StrBlock.offsets start (xs ++ ys) =
    StrBlock.offsets start xs ++ StrBlock.offsets (start + xs.flatten.length) ys := by
  induction xs generalizing start with
  | nil => rfl
  | cons x xs ih =>
    rw [cons_append, StrBlock.offsets, StrBlock.offsets, ih, flatten_cons, length_append,
      cons_append, Nat.add_assoc]

@[simp] theorem length_offsets : (StrBlock.offsets start rests).length = rests.length := by
  induction rests generalizing start with
  | nil => rfl
  | cons rest rests ih => rw [StrBlock.offsets, length_cons, ih, length_cons]

theorem getD_offsets (hi : i < rests.length) : (StrBlock.offsets start rests).getD i 0 =
    u32 (start + (rests.take (i + 1)).flatten.length) := by
  induction rests generalizing start i with
  | nil => simp at hi
  | cons rest rests ih =>
    cases i with
    | zero => simp [StrBlock.offsets]
    | succ i =>
      have hrest := @ih (start + rest.length) i (by simpa using hi)
      rw [StrBlock.offsets, getD_cons_succ, hrest, take_succ_cons, flatten_cons,
        length_append, Nat.add_assoc]

theorem map_offsets_add : (StrBlock.offsets start rests).map (fun e => u32 (e + u32 n)) =
      StrBlock.offsets (start + n) rests := by
  induction rests generalizing start with
  | nil => rfl
  | cons rest rests ih =>
    have hfirst : u32 (u32 (start + rest.length) + u32 n) = u32 (start + n + rest.length) := by
      simp only [u32]
      omega
    rw [StrBlock.offsets, StrBlock.offsets, map_cons, ih, hfirst,
      Nat.add_right_comm start rest.length n]

theorem map_offsets_sub (hsmall : start + n + rests.flatten.length < 2 ^ 32) :
    (StrBlock.offsets (start + n) rests).map (fun e => u32 (e + 2 ^ 32 - u32 n)) =
      StrBlock.offsets start rests := by
  induction rests generalizing start with
  | nil => rfl
  | cons rest rests ih =>
    rw [flatten_cons, length_append] at hsmall
    have hrest := @ih (start + rest.length) (by omega)
    have hfirst : u32 (u32 (start + n + rest.length) + 2 ^ 32 - u32 n) =
        u32 (start + rest.length) := by
      simp only [u32]
      omega
    rw [StrBlock.offsets, StrBlock.offsets, map_cons, hfirst,
      Nat.add_right_comm start n rest.length, hrest]

end Offsets

namespace Packs

variable {b : StrBlock} {p key : Key} {es xs ys : List (Key × IdSet)} {ids : IdSet} {i : ℕ}

theorem len_eq (h : Packs b p es) : b.len = es.length := by
  rw [h.eq]
  simp [StrBlock.len, StrBlock.ofRests]

theorem common_eq (h : Packs b p es) : b.common = p.length := by
  have hlt := h.small
  rw [h.eq]
  exact u32_of_lt (by omega)

theorem start_eq (h : Packs b p es) : b.start = p := by
  rw [StrBlock.start, h.common_eq, h.eq]
  exact take_left

theorem ids_eq (h : Packs b p es) : b.ids = es.map snd := by
  rw [h.eq]
  rfl

theorem startOf_eq (h : Packs b p es) (hi : i ≤ es.length) : b.startOf i =
    p.length + ((es.take i).map fun e => e.1.drop p.length).flatten.length := by
  have hlt := h.small
  have hprefix : ((es.take i).map fun e => e.1.drop p.length).flatten.length ≤
      (es.map fun e => e.1.drop p.length).flatten.length := by
    conv_rhs => rw [← take_append_drop i es, map_append, flatten_append, length_append]
    omega
  rw [StrBlock.startOf]
  split_ifs with hzero
  · rw [hzero, h.common_eq]
    simp
  · have hends : b.ends = StrBlock.offsets p.length (es.map fun e => e.1.drop p.length) := by
      rw [h.eq]
      rfl
    rw [hends, getD_offsets (by rw [length_map]; omega), ← map_take]
    have hpred : i - 1 + 1 = i := by omega
    rw [hpred]
    exact u32_of_lt (by omega)

theorem end_eq (h : Packs b p (xs ++ (key, ids) :: ys)) : b.ends.getD xs.length 0 =
    p.length + (xs.map fun e => e.1.drop p.length).flatten.length + (key.drop p.length).length := by
  have hnext := h.startOf_eq (i := xs.length + 1) (by simp)
  rw [StrBlock.startOf, if_neg (Nat.succ_ne_zero _), Nat.add_sub_cancel] at hnext
  rw [hnext, take_append, take_of_length_le (Nat.le_succ _)]
  simp [Nat.add_assoc]

theorem bytes_eq (h : Packs b p (xs ++ ys)) : b.bytes =
    (p ++ (xs.map fun e => e.1.drop p.length).flatten) ++
      (ys.map fun e => e.1.drop p.length).flatten := by
  rw [h.eq]
  simp [StrBlock.ofRests]

theorem startOf_length (h : Packs b p (xs ++ ys)) : b.startOf xs.length =
    (p ++ (xs.map fun e => e.1.drop p.length).flatten).length := by
  rw [h.startOf_eq (by simp), take_left, length_append]

theorem suffix_eq (h : Packs b p (xs ++ (key, ids) :: ys)) :
    b.suffix xs.length = key.drop p.length := by
  have hend := h.end_eq
  have hstart := h.startOf_length
  rw [StrBlock.suffix, hstart, h.bytes_eq, drop_left, hend]
  rw [length_append, Nat.add_sub_cancel_left, map_cons, flatten_cons, take_left]

/-- Key and ids at a position. -/
theorem key_eq (h : Packs b p (xs ++ (key, ids) :: ys)) :
    b.key xs.length = key ∧ b.idsOf xs.length = ids := by
  constructor
  · obtain ⟨rest, hrest⟩ : p <+: key := h.common (key, ids) (by simp)
    rw [StrBlock.key, h.start_eq, h.suffix_eq, ← hrest, drop_left]
  · rw [StrBlock.idsOf, h.ids_eq]
    simp [List.getD_eq_getElem?_getD]

theorem keyAt (h : Packs b p es) (hi : i < es.length) : b.key i = (es[i]).1 ∧
    b.idsOf i = (es[i]).2 ∧ b.suffix i = (es[i]).1.drop p.length := by
  have hsplit : es = es.take i ++ (es[i].1, es[i].2) :: es.drop (i + 1) := by
    rw [Prod.mk.eta, getElem_cons_drop, take_append_drop]
  have hlen : (es.take i).length = i := length_take_of_le (by omega)
  have h' : Packs b p (es.take i ++ (es[i].1, es[i].2) :: es.drop (i + 1)) := by
    rw [← hsplit]
    exact h
  have hkey := h'.key_eq
  have hsuffix := h'.suffix_eq
  rw [hlen] at hkey hsuffix
  exact ⟨hkey.1, hkey.2, hsuffix⟩

/-- Reading a block gives its entries. -/
theorem entries_eq (h : Packs b p es) : b.entries = es := by
  apply ext_getElem
  · simp [StrBlock.entries, h.len_eq]
  · intro i hi hi'
    obtain ⟨hkey, hids, -⟩ := h.keyAt hi'
    simp only [StrBlock.entries, getElem_map, getElem_range, hkey, hids]

theorem keys_eq (h : Packs b p es) : (range b.len).map b.key = es.map fst := by
  have hentries := congrArg (map fst) h.entries_eq
  rw [StrBlock.entries, map_map] at hentries
  exact hentries

/-- An entry whose ids changed. -/
theorem setIds (h : Packs b p (xs ++ (key, ids) :: ys)) (ids' : IdSet) :
    Packs { b with ids := b.ids.set xs.length ids' } p (xs ++ (key, ids') :: ys) := by
  refine ⟨?_, ?_, ?_⟩
  · intro e he
    rcases mem_append.mp he with he | he
    · exact h.common e (mem_append_left _ he)
    · rcases mem_cons.mp he with rfl | he
      · exact h.common (key, ids) (by simp)
      · exact h.common e (by simp [he])
  · have hids : b.ids.set xs.length ids' = (xs ++ (key, ids') :: ys).map snd := by
      rw [h.ids_eq]
      simp
    rw [hids]
    conv_lhs => rw [h.eq]
    simp [StrBlock.ofRests]
  · simpa using h.small

/-! ### Editing -/

theorem insertAt_start (h : Packs b p (xs ++ ys)) (hp : p <+: key)
    (hroom : p.length + ((xs ++ (key, ids) :: ys).map
      fun e => e.1.drop p.length).flatten.length < 2 ^ 32) :
    Packs (b.insertAt xs.length key ids) p (xs ++ (key, ids) :: ys) := by
  refine ⟨?_, ?_, hroom⟩
  · intro e he
    rcases mem_append.mp he with he | he
    · exact h.common e (mem_append_left _ he)
    · rcases mem_cons.mp he with rfl | he
      · exact hp
      · exact h.common e (mem_append_right _ he)
  · have hif : (if b.start.isPrefixOf key then b
        else b.shortenPrefix (commonPrefix b.start key)) = b := by
      refine if_pos ?_
      rw [h.start_eq]
      exact startsWith_iff.mpr hp
    have hends : b.ends = StrBlock.offsets p.length (xs.map fun e => e.1.drop p.length) ++
        StrBlock.offsets (p.length + (xs.map fun e => e.1.drop p.length).flatten.length)
          (ys.map fun e => e.1.drop p.length) := by
      rw [← offsets_append, ← map_append, h.eq]
      rfl
    have htake : b.ends.take xs.length =
        StrBlock.offsets p.length (xs.map fun e => e.1.drop p.length) := by
      rw [hends]
      exact take_left' (by simp)
    have hdrop : b.ends.drop xs.length =
        StrBlock.offsets (p.length + (xs.map fun e => e.1.drop p.length).flatten.length)
          (ys.map fun e => e.1.drop p.length) := by
      rw [hends]
      exact drop_left' (by simp)
    rw [StrBlock.insertAt]
    simp only [hif, h.startOf_length, h.common_eq, htake, hdrop, map_offsets_add, h.bytes_eq,
      h.ids_eq, take_left, drop_left]
    rw [insertIdx_at (by simp), map_append, insertIdx_at (by simp)]
    have hoffsets := offsets_append p.length (xs.map fun e => e.1.drop p.length)
      (key.drop p.length :: ys.map fun e => e.1.drop p.length)
    rw [StrBlock.offsets] at hoffsets
    have hcommon : u32 p.length = p.length := by
      have hlt := h.small
      exact u32_of_lt (by omega)
    simp only [StrBlock.ofRests, map_append, map_cons, flatten_append, flatten_cons,
      append_assoc, hoffsets, length_append, hcommon]

/-- With fewer bytes of the common start a block holds the same. -/
theorem shortenPrefix (h : Packs b p es) {n : ℕ} (hn : n ≤ p.length)
    (hroom : n + (es.map fun e => e.1.drop n).flatten.length < 2 ^ 32) :
    Packs (b.shortenPrefix n) (p.take n) es := by
  have hlen : (p.take n).length = n := length_take_of_le hn
  refine ⟨fun e he => (take_start n p).trans (h.common e he), ?_, by rwa [hlen]⟩
  have hbytes : b.bytes.take n = p.take n := by
    have hall := @bytes_eq b p [] es h
    rw [hall]
    simp [take_append_of_le_length hn]
  rw [StrBlock.shortenPrefix, h.keys_eq, h.ids_eq, hbytes, map_map, hlen]
  rfl

theorem commonPrefix_start (a b : Key) : a.take (commonPrefix a b) <+: b := by
  rw [take_commonPrefix]
  exact take_start _ _

theorem grown_eq (h : Packs b p (xs ++ ys)) : b.grown key = commonPrefix p key +
    ((xs ++ (key, ids) :: ys).map fun e => e.1.drop (commonPrefix p key)).flatten.length := by
  rw [StrBlock.grown, h.start_eq, h.keys_eq]
  simp only [map_append, map_cons, map_map, flatten_append, flatten_cons, length_append,
    Function.comp_def]
  omega

/-- An inserted key is where it was inserted. -/
theorem insertAt (h : Packs b p (xs ++ ys)) (hroom : b.grown key < 2 ^ 32) :
    ∃ q, Packs (b.insertAt xs.length key ids) q (xs ++ (key, ids) :: ys) := by
  have hgrown : b.grown key = commonPrefix p key +
      ((xs ++ (key, ids) :: ys).map fun e => e.1.drop (commonPrefix p key)).flatten.length :=
    h.grown_eq
  rw [hgrown] at hroom
  have hn := commonPrefix_le_left p key
  have hlen : (p.take (commonPrefix p key)).length = commonPrefix p key := length_take_of_le hn
  have hstart := commonPrefix_start p key
  by_cases hp : p <+: key
  · have hall : commonPrefix p key = p.length := commonPrefix_of_start hp
    rw [hall] at hroom
    exact ⟨p, h.insertAt_start hp hroom⟩
  · have hnot : ¬ b.start.isPrefixOf key = true := by
      rw [h.start_eq, startsWith_iff]
      exact hp
    have hbefore : commonPrefix p key +
        ((xs ++ ys).map fun e => e.1.drop (commonPrefix p key)).flatten.length < 2 ^ 32 := by
      simp only [map_append, map_cons, flatten_append, flatten_cons, length_append] at hroom ⊢
      omega
    have hshort := h.shortenPrefix hn hbefore
    have heq : b.insertAt xs.length key ids =
        (b.shortenPrefix (commonPrefix p key)).insertAt xs.length key ids := by
      have hyes : (b.shortenPrefix (commonPrefix p key)).start.isPrefixOf key = true := by
        rw [hshort.start_eq, startsWith_iff]
        exact hstart
      rw [StrBlock.insertAt, StrBlock.insertAt, if_neg hnot, if_pos hyes, h.start_eq]
    rw [heq]
    exact ⟨_, hshort.insertAt_start hstart (by rwa [hlen])⟩

/-- A removed key is gone. -/
theorem removeAt (h : Packs b p (xs ++ (key, ids) :: ys)) :
    Packs (b.removeAt xs.length) p (xs ++ ys) := by
  have hlt := h.small
  refine ⟨?_, ?_, ?_⟩
  · intro e he
    rcases mem_append.mp he with he | he
    · exact h.common e (mem_append_left _ he)
    · exact h.common e (mem_append_right _ (mem_cons_of_mem _ he))
  · have hends : b.ends = StrBlock.offsets p.length (xs.map fun e => e.1.drop p.length) ++
        u32 (p.length + (xs.map fun e => e.1.drop p.length).flatten.length +
          (key.drop p.length).length) ::
        StrBlock.offsets (p.length + (xs.map fun e => e.1.drop p.length).flatten.length +
          (key.drop p.length).length) (ys.map fun e => e.1.drop p.length) := by
      have hsplit := offsets_append p.length (xs.map fun e => e.1.drop p.length)
        (key.drop p.length :: ys.map fun e => e.1.drop p.length)
      rw [StrBlock.offsets] at hsplit
      rw [← hsplit, h.eq]
      simp [StrBlock.ofRests]
    have hends' : b.ends.eraseIdx xs.length =
        StrBlock.offsets p.length (xs.map fun e => e.1.drop p.length) ++
          StrBlock.offsets (p.length + (xs.map fun e => e.1.drop p.length).flatten.length +
            (key.drop p.length).length) (ys.map fun e => e.1.drop p.length) := by
      rw [hends]
      exact eraseIdx_at (by simp)
    have hbytes : p.length + (xs.map fun e => e.1.drop p.length).flatten.length +
        (key.drop p.length).length + (ys.map fun e => e.1.drop p.length).flatten.length <
          2 ^ 32 := by
      simp only [map_append, map_cons, flatten_append, flatten_cons, length_append] at hlt
      omega
    have hgap : p.length + (xs.map fun e => e.1.drop p.length).flatten.length +
        (key.drop p.length).length -
          (p.length + (xs.map fun e => e.1.drop p.length).flatten.length) =
        (key.drop p.length).length := Nat.add_sub_cancel_left ..
    have hdropEnd : b.bytes.drop (p.length +
        (xs.map fun e => e.1.drop p.length).flatten.length + (key.drop p.length).length) =
          (ys.map fun e => e.1.drop p.length).flatten := by
      rw [h.bytes_eq, map_cons, flatten_cons, ← append_assoc]
      refine drop_left' ?_
      simp only [length_append]
    rw [StrBlock.removeAt, hends', h.end_eq, h.startOf_length]
    rw [h.bytes_eq, take_left, length_append, ← h.bytes_eq, hdropEnd, hgap]
    have hlenEnds : (StrBlock.offsets p.length (xs.map fun e => e.1.drop p.length)).length =
        xs.length := by simp
    rw [take_left' hlenEnds, drop_left' hlenEnds, map_offsets_sub hbytes, h.ids_eq, map_append,
      map_cons, eraseIdx_at (by simp), ← offsets_append, ← map_append]
    simp [StrBlock.ofRests, h.eq]
  · simp only [map_append, map_cons, flatten_append, flatten_cons, length_append] at hlt ⊢
    omega

/-! ### Searching -/

/-- The halving keeps what is below it before `lo`, and what is above from `hi` on. -/
theorem searchFrom_spec (h : Packs b p es) (rest : Key) (fuel lo : ℕ) {hi : ℕ}
    (hhi : hi ≤ es.length) (hlo : lo ≤ hi) (hfuel : hi - lo < fuel)
    (hbelow : ∀ i (hi : i < es.length), i < lo → (es[i]).1.drop p.length < rest)
    (habove : ∀ i (hi' : i < es.length), hi ≤ i → rest < (es[i]).1.drop p.length)
    (hsorted : ∀ i j (hi : i < es.length) (hj : j < es.length), i < j →
      (es[i]).1.drop p.length < (es[j]).1.drop p.length) :
    (∃ i, ∃ hin : i < es.length, b.searchFrom rest fuel lo hi = .inl i ∧
        (es[i]).1.drop p.length = rest) ∨
      ∃ i, i ≤ es.length ∧ b.searchFrom rest fuel lo hi = .inr i ∧
        (∀ j (hj : j < es.length), j < i → (es[j]).1.drop p.length < rest) ∧
        ∀ j (hj : j < es.length), i ≤ j → rest < (es[j]).1.drop p.length := by
  induction fuel generalizing lo hi with
  | zero => omega
  | succ fuel ih =>
    rw [StrBlock.searchFrom]
    by_cases hlt : lo < hi
    · rw [if_pos hlt]
      have hmid : (lo + hi) / 2 < es.length := by omega
      have hsuffix := (h.keyAt hmid).2.2
      simp only [hsuffix]
      by_cases hless : (es[(lo + hi) / 2]).1.drop p.length < rest
      · rw [if_pos hless]
        refine ih _ hhi (by omega) (by omega) ?_ habove
        intro i hi hle
        rcases Nat.lt_or_eq_of_le (Nat.le_of_lt_succ hle) with hbefore | rfl
        · exact (hsorted i _ hi hmid hbefore).trans hless
        · exact hless
      · rw [if_neg hless]
        by_cases hmore : rest < (es[(lo + hi) / 2]).1.drop p.length
        · rw [if_pos hmore]
          refine ih _ (by omega) (by omega) (by omega) hbelow ?_
          intro i hi hle
          rcases Nat.lt_or_eq_of_le hle with hafter | rfl
          · exact hmore.trans (hsorted _ i hmid hi hafter)
          · exact hmore
        · rw [if_neg hmore]
          exact .inl ⟨_, hmid, rfl, le_antisymm (not_lt.mp hmore) (not_lt.mp hless)⟩
    · rw [if_neg hlt]
      have heq : lo = hi := by omega
      exact .inr ⟨lo, by omega, rfl, hbelow, heq ▸ habove⟩

/-- A search finds a key, or the place between the smaller and the larger ones. -/
theorem search (h : Packs b p es) (hsorted : SortedMap.Sorted es) (key : Key) :
    (∃ xs ids ys, es = xs ++ (key, ids) :: ys ∧ b.search key = .inl xs.length) ∨
      ∃ xs ys, es = xs ++ ys ∧ b.search key = .inr xs.length ∧ (∀ e ∈ xs, e.1 < key) ∧
        ∀ e ∈ ys, key < e.1 := by
  have hkey : ∀ e ∈ es, e.1 = p ++ e.1.drop p.length := by
    intro e he
    obtain ⟨rest, hrest⟩ := h.common e he
    rw [← hrest, drop_left]
  rw [StrBlock.search, h.start_eq, h.len_eq]
  by_cases hp : p <+: key
  · obtain ⟨rest, rfl⟩ := hp
    rw [if_pos (startsWith_iff.mpr (prefix_append p rest)), drop_left]
    have hrests : ∀ i j (hi : i < es.length) (hj : j < es.length), i < j →
        (es[i]).1.drop p.length < (es[j]).1.drop p.length := by
      intro i j hi hj hij
      have hlt := pairwise_iff_getElem.mp hsorted i j hi hj hij
      rw [hkey _ (getElem_mem hi), hkey _ (getElem_mem hj), append_lt_append_iff] at hlt
      exact hlt
    have hspec := h.searchFrom_spec rest (es.length + 1) 0 le_rfl (Nat.zero_le _)
      (by omega) (fun i hi hlt => absurd hlt (Nat.not_lt_zero i))
      (fun i hi hle => absurd hi (not_lt.mpr hle)) hrests
    rcases hspec with ⟨i, hi, heq, hrest⟩ | ⟨i, hi, heq, hbelow, habove⟩
    · refine .inl ⟨es.take i, (es[i]).2, es.drop (i + 1), ?_, ?_⟩
      · have hpair : (p ++ rest, (es[i]).2) = es[i] := by
          rw [← hrest, ← hkey _ (getElem_mem hi)]
        rw [hpair, getElem_cons_drop, take_append_drop]
      · rw [heq, length_take_of_le (by omega)]
    · refine .inr ⟨es.take i, es.drop i, (take_append_drop i es).symm, ?_, ?_, ?_⟩
      · rw [heq, length_take_of_le hi]
      · intro e he
        obtain ⟨j, hj, rfl⟩ := getElem_of_mem he
        rw [length_take_of_le hi] at hj
        rw [getElem_take, hkey _ (getElem_mem _), append_lt_append_iff]
        exact hbelow j (by omega) hj
      · intro e he
        obtain ⟨j, hj, rfl⟩ := getElem_of_mem he
        rw [length_drop] at hj
        rw [getElem_drop, hkey _ (getElem_mem (by omega)), append_lt_append_iff]
        exact habove (i + j) (by omega) (Nat.le_add_right i j)
  · have hnot : ¬ p.isPrefixOf key = true := by
      rw [startsWith_iff]
      exact hp
    rw [if_neg hnot]
    by_cases hlt : key < p
    · rw [if_pos hlt]
      refine .inr ⟨[], es, rfl, rfl, by simp, ?_⟩
      intro e he
      rw [hkey e he]
      exact (lt_append_of_start hp).1.mp hlt
    · rw [if_neg hlt]
      refine .inr ⟨es, [], by simp, rfl, ?_, by simp⟩
      intro e he
      rw [hkey e he]
      have hout := @lt_append_of_start key p (e.1.drop p.length) hp
      exact lt_of_le_of_ne (not_lt.mp fun hgt => hlt (hout.1.mpr hgt)) hout.2.symm

/-! ### Packing -/

/-- Sorted keys packed anew take no more bytes than they did. -/
theorem packed (hsorted : SortedMap.Sorted es)
    (hroom : StrBlock.packedSize (es.map fst) < 2 ^ 32) :
    ∃ q, Packs (.packed (es.map fst) (es.map snd)) q es := by
  cases es with
  | nil => exact ⟨[], by simp, rfl, by simp⟩
  | cons first rest =>
    have hle := commonOf_le first.1 (rest.map fst)
    have hlen : (first.1.take (StrBlock.commonOf ((first :: rest).map fst))).length =
        StrBlock.commonOf ((first :: rest).map fst) := length_take_of_le hle
    refine ⟨first.1.take (StrBlock.commonOf ((first :: rest).map fst)), ?_, ?_, ?_⟩
    · intro e he
      have hstart := commonOf_start (hsorted.imp fun hlt => le_of_lt hlt) he
      rw [← hstart]
      exact take_start _ _
    · rw [hlen, StrBlock.packed, map_map]
      rfl
    · rw [hlen]
      rw [StrBlock.packedSize, map_map] at hroom
      exact hroom

/-- A block split in two is both halves, packed anew. -/
theorem splitOff (h : Packs b p (xs ++ ys)) (hsorted : SortedMap.Sorted (xs ++ ys)) :
    (∃ q, Packs (b.splitOff xs.length).1 q xs) ∧ ∃ q, Packs (b.splitOff xs.length).2 q ys := by
  have hsmall := h.small
  rw [map_append, flatten_append, length_append] at hsmall
  obtain ⟨hxs, hys, -⟩ := pairwise_append.mp hsorted
  have hlow := packedSize_lt (fun e he => h.common e (mem_append_left _ he))
    (show p.length + (xs.map fun e => e.1.drop p.length).flatten.length < 2 ^ 32 by omega)
  have hhigh := packedSize_lt (fun e he => h.common e (mem_append_right _ he))
    (show p.length + (ys.map fun e => e.1.drop p.length).flatten.length < 2 ^ 32 by omega)
  rw [StrBlock.splitOff, h.keys_eq, h.ids_eq]
  simp only [map_append]
  rw [take_left' (by simp), take_left' (by simp), drop_left' (by simp), drop_left' (by simp)]
  exact ⟨Packs.packed hxs hlow, Packs.packed hys hhigh⟩

end Packs

end StrIndex

end LoraDb
