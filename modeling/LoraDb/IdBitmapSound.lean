import LoraDb.IdBitmap

/-!
# Blocks of Ids

Whatever its form, a block is the set of its low bits, and iterating over it yields them in
order.

## Main results

* `BlockIter.next_spec`, `BlockIter.new_left`: the iterator yields the low bits from its start on.
* `Block.insert_ok`, `Block.remove_ok`: the writes, and the form they leave the block in.
-/

open List SortedRuns

namespace LoraDb

namespace Bitmap

variable {low l : Low} {words : Bits}

/-! ### Bits -/

theorem toNat_wordOf (low : Low) : (wordOf low).val = low.val / 64 :=
  Nat.shiftRight_eq_div_pow _ 6

theorem and_63 (n : ℕ) : n &&& 63 = n % 64 := Nat.and_two_pow_sub_one_eq_mod n 6

/-- Low bits are their word and their bit in it. -/
theorem low_eq_iff : l = low ↔ wordOf l = wordOf low ∧ l.val % 64 = low.val % 64 := by
  rw [Fin.ext_iff, Fin.ext_iff, toNat_wordOf, toNat_wordOf]
  omega

theorem getLsbD_maskOf (low : Low) (i : ℕ) :
    (maskOf low).getLsbD i = decide (i = low.val % 64) := by
  have hlt : low.val % 64 < 64 := Nat.mod_lt _ (by decide)
  rw [maskOf, and_63, BitVec.getLsbD_shiftLeft, BitVec.getLsbD_one]
  by_cases hi : i = low.val % 64
  · simp [hi, hlt]
  · have hne : i < low.val % 64 ∨ i - low.val % 64 ≠ 0 := by omega
    rcases hne with hlt | hne
    · simp [hi, hlt]
    · simp [hi, hne]

/-- Whether a bitmap holds low bits. -/
def held (words : Bits) (low : Low) : Bool := (words.get (wordOf low)).getLsbD (low.val % 64)

theorem and_mask_eq_zero : words.get (wordOf low) &&& maskOf low = 0#64 ↔
    held words low = false := by
  constructor
  · intro hzero
    have hbit := congrArg (fun w : BitVec 64 => w.getLsbD (low.val % 64)) hzero
    simpa [getLsbD_maskOf, held] using hbit
  · intro hheld
    refine BitVec.eq_of_getLsbD_eq fun i hi => ?_
    rw [BitVec.getLsbD_and, getLsbD_maskOf]
    by_cases heq : i = low.val % 64
    · rw [heq]
      simpa [held] using hheld
    · simp [heq]

theorem get_set (words : Bits) (word word' : Fin WORDS) (w : BitVec 64) :
    Vector.get (words.set word w word.isLt) word' = if word = word' then w
      else words.get word' := by
  rw [Vector.get_eq_getElem, Vector.getElem_set, Vector.get_eq_getElem]
  simp only [Fin.ext_iff]

theorem held_setBit (words : Bits) (low l : Low) :
    held (words.setBit low) l = (decide (l = low) || held words l) := by
  rw [held, Bits.setBit, get_set]
  split_ifs with hword
  · rw [BitVec.getLsbD_or, getLsbD_maskOf, hword, Bool.or_comm]
    have hiff : l.val % 64 = low.val % 64 ↔ l = low := by
      rw [low_eq_iff]
      exact ⟨fun h => ⟨hword.symm, h⟩, And.right⟩
    simp only [hiff]
    rfl
  · have hne : l ≠ low := by
      rintro rfl
      exact hword rfl
    rw [decide_eq_false hne, Bool.false_or]
    rfl

theorem held_clearBit (words : Bits) (low l : Low) :
    held (words.clearBit low) l = (held words l && decide (l ≠ low)) := by
  rw [held, Bits.clearBit, get_set]
  split_ifs with hword
  · have hlt : l.val % 64 < 64 := Nat.mod_lt _ (by decide)
    rw [BitVec.getLsbD_and, BitVec.getLsbD_not, getLsbD_maskOf, hword]
    have hiff : l.val % 64 = low.val % 64 ↔ l = low := by
      rw [low_eq_iff]
      exact ⟨fun h => ⟨hword.symm, h⟩, And.right⟩
    simp only [hiff, hlt, decide_true, Bool.true_and, decide_not]
    rfl
  · have hne : l ≠ low := by
      rintro rfl
      exact hword rfl
    rw [decide_eq_true hne, Bool.and_true]
    rfl

theorem held_zeros (l : Low) : held .zeros l = false := by
  rw [held, Bits.zeros, Vector.get_eq_getElem, Vector.getElem_replicate]
  exact BitVec.getLsbD_zero

theorem held_foldl (lows : List Low) (words : Bits) (l : Low) :
    held (lows.foldl Bits.setBit words) l = (decide (l ∈ lows) || held words l) := by
  induction lows generalizing words with
  | nil => simp
  | cons low lows ih =>
    rw [foldl_cons, ih, held_setBit]
    by_cases h : l = low <;> simp [h]

/-! ### The iterator of a block -/

/-- All low bits, ascending. -/
def allLows : List Low := finRange (2 ^ 16)

theorem allLows_ascending : allLows.Pairwise (· < ·) := pairwise_lt_finRange _

theorem mem_allLows (low : Low) : low ∈ allLows := mem_finRange low

namespace Block

/-- The low bits of a block, ascending. -/
def lows : Block → List Low
  | .array lows => lows
  | .bits words => allLows.filter (held words)

end Block

/-- The first element that passes a filter, and the filter without it. -/
theorem filter_first {α : Type} [LinearOrder α] {p : α → Bool} {first : α} {as : List α}
    (h : as.Pairwise (· < ·)) (hmem : first ∈ as) (hfirst : p first = true)
    (hleast : ∀ a ∈ as, p a = true → first ≤ a) :
    as.filter p = first :: as.filter fun a => p a && decide (a ≠ first) := by
  obtain ⟨as, bs, rfl⟩ := append_of_mem hmem
  obtain ⟨-, hbs, hcross⟩ := pairwise_append.mp h
  have hbelow : ∀ a ∈ as, p a = true → False := fun a ha hp =>
    absurd (hleast a (mem_append_left _ ha) hp) (not_le.mpr (hcross a ha first mem_cons_self))
  have habove : ∀ a ∈ bs, a ≠ first := fun a ha => ne_of_gt ((pairwise_cons.mp hbs).1 a ha)
  have hnone : as.filter p = [] := filter_eq_nil_iff.mpr hbelow
  have hnone' : as.filter (fun a => p a && decide (a ≠ first)) = [] :=
    filter_eq_nil_iff.mpr fun a ha hp => hbelow a ha (Bool.and_eq_true_iff.mp hp).1
  have hrest : bs.filter (fun a => p a && decide (a ≠ first)) = bs.filter p :=
    filter_congr fun a ha => by rw [decide_eq_true (habove a ha), Bool.and_true]
  rw [filter_append, filter_append, hnone, hnone', nil_append, nil_append, filter_cons,
    if_pos hfirst, filter_cons, if_neg (by simp), hrest]

/-- A word less its lowest bit. -/
theorem getLsbD_and_pred {w : BitVec 64} (hw : w ≠ 0#64) (i : ℕ) :
    (w &&& (w - 1#64)).getLsbD i = (w.getLsbD i && decide (i ≠ w.ctz.toNat)) := by
  have hlow : ∀ j < w.ctz.toNat, w.toNat.testBit j = false := fun j hj =>
    BitVec.getLsbD_false_of_lt_ctz hj
  have htrue : w.toNat.testBit w.ctz.toNat = true := BitVec.getLsbD_true_ctz_of_ne_zero hw
  generalize w.ctz.toNat = t at hlow htrue ⊢
  -- The word ends in a one and `t` zeros.
  have hend : w.toNat % 2 ^ (t + 1) = 2 ^ t := by
    refine Nat.eq_of_testBit_eq fun j => ?_
    rw [Nat.testBit_mod_two_pow, Nat.testBit_two_pow]
    rcases lt_trichotomy j t with hj | rfl | hj
    · rw [hlow j hj, Bool.and_false, decide_eq_false (ne_of_gt hj)]
    · rw [htrue, decide_eq_true (Nat.lt_succ_self j), decide_eq_true rfl]
      rfl
    · rw [decide_eq_false (by omega), Bool.false_and, decide_eq_false (ne_of_lt hj)]
  have hpow : 2 ^ t < 2 ^ (t + 1) := Nat.pow_lt_pow_succ (by decide)
  have hpos : 0 < 2 ^ t := Nat.two_pow_pos t
  have hsplit := Nat.div_add_mod w.toNat (2 ^ (t + 1))
  rw [hend] at hsplit
  generalize w.toNat / 2 ^ (t + 1) = q at hsplit
  have hpred : (w - 1#64).toNat = 2 ^ (t + 1) * q + (2 ^ t - 1) := by
    have hle : (1#64).toNat ≤ w.toNat := by
      rw [← hsplit]
      exact hpos.trans_le (Nat.le_add_left _ _)
    rw [BitVec.toNat_sub_of_le (BitVec.le_def.mpr hle), ← hsplit]
    exact Nat.add_sub_assoc hpos _
  rw [BitVec.getLsbD_and]
  change (w.toNat.testBit i && (w - 1#64).toNat.testBit i) = (w.toNat.testBit i && _)
  rw [hpred, ← hsplit, Nat.testBit_two_pow_mul_add _ hpow,
    Nat.testBit_two_pow_mul_add _ (lt_of_le_of_lt (Nat.sub_le _ _) hpow)]
  split_ifs with hi
  · rw [Nat.testBit_two_pow, Nat.testBit_two_pow_sub_one]
    by_cases heq : t = i
    · simp [heq]
    · simp [heq]
  · have hne : i ≠ t := by omega
    simp [hne]

/-- What follows the partition point of ascending keys is not below the key. -/
theorem drop_partitionPoint {κ α : Type} [LinearOrder κ] {key : α → κ} {as : List α}
    (h : Ascends key as) (k : κ) : as.drop (partitionPoint (fun a => decide (key a < k)) as) =
      as.filter fun a => decide (k ≤ key a) := by
  obtain ⟨as, bs, rfl, hpos, has, hbs⟩ := partitionPoint_split (fun a => decide (key a < k)) as
  have hnone : as.filter (fun a => decide (k ≤ key a)) = [] := filter_eq_nil_iff.mpr fun a ha hle =>
    absurd (of_decide_eq_true (has a ha)) (not_lt.mpr (of_decide_eq_true hle))
  have hall : bs.filter (fun a => decide (k ≤ key a)) = bs := by
    refine filter_eq_self.mpr fun b hb => decide_eq_true ?_
    cases bs with
    | nil => cases hb
    | cons first bs =>
      have hfirst : k ≤ key first := not_lt.mp (of_decide_eq_false (hbs first rfl))
      rcases mem_cons.mp hb with rfl | hb
      · exact hfirst
      · exact hfirst.trans ((pairwise_cons.mp (pairwise_append.mp h).2.1).1 b hb).le
  rw [← hpos, drop_left, filter_append, hnone, hall, nil_append]

namespace BlockIter

/-- The low bits an iterator has left. -/
def left : BlockIter → List Low
  | .array lows => lows
  | .bits words word current => allLows.filter fun l =>
    if wordOf l = word then current.getLsbD (l.val % 64)
    else decide (word < wordOf l) && held words l

/-- Where a search for the next word ends. -/
inductive Seeks (words : Bits) (lows : List Low) : Option (Fin WORDS × BitVec 64) → Prop
  | through (h : lows = []) : Seeks words lows none
  | found {word : Fin WORDS} {current : BitVec 64} (hne : current ≠ 0#64)
      (h : left (.bits words word current) = lows) : Seeks words lows (some (word, current))

theorem seek_spec (words : Bits) (word : Fin WORDS) (current : BitVec 64) :
    Seeks words (left (.bits words word current)) (seek words word current) := by
  fun_induction seek words word current with
  | case1 word hlast =>
    refine .through (filter_eq_nil_iff.mpr fun l _ => ?_)
    have hle : ¬ word < wordOf l := by
      rw [Fin.lt_def]
      omega
    split_ifs
    · rw [BitVec.getLsbD_zero]
      exact Bool.false_ne_true
    · rw [decide_eq_false hle, Bool.false_and]
      exact Bool.false_ne_true
  | case2 word hmore word' ih =>
    have hsame : left (.bits words word' (words.get word')) = left (.bits words word 0#64) := by
      rw [left, left]
      refine filter_congr fun l _ => ?_
      have hword' : word'.val = word.val + 1 := rfl
      rw [BitVec.getLsbD_zero]
      by_cases heq : wordOf l = word'
      · have hlt : word < wordOf l := by
          rw [heq, Fin.lt_def]
          omega
        rw [if_pos heq, if_neg (ne_of_gt hlt), decide_eq_true hlt, Bool.true_and, held, heq]
      · rw [if_neg heq]
        rw [Fin.ext_iff] at heq
        split_ifs with hword
        · rw [decide_eq_false (by rw [hword, Fin.lt_def]; omega), Bool.false_and]
        · rw [Fin.ext_iff] at hword
          have hiff : word' < wordOf l ↔ word < wordOf l := by
            rw [Fin.lt_def, Fin.lt_def]
            omega
          simp only [hiff]
    rwa [hsame] at ih
  | case3 word current hne => exact .found hne rfl

section First

variable {word : Fin WORDS} {current : BitVec 64} {first : Low} (words : Bits)
  (hword : wordOf first = word) (hbit : first.val % 64 = current.ctz.toNat)
include hword hbit

/-- The lowest bit of the current word is left. -/
theorem first_held (hne : current ≠ 0#64) :
    (if wordOf first = word then current.getLsbD (first.val % 64)
      else decide (word < wordOf first) && held words first) = true := by
  rw [if_pos hword, hbit]
  exact BitVec.getLsbD_true_ctz_of_ne_zero hne

/-- It is the least of those left. -/
theorem first_least : ∀ l ∈ allLows, (if wordOf l = word then current.getLsbD (l.val % 64)
    else decide (word < wordOf l) && held words l) = true → first ≤ l := by
  intro l _ hl
  rw [Fin.le_def]
  rw [Fin.ext_iff, toNat_wordOf] at hword
  split_ifs at hl with hsame
  · rw [Fin.ext_iff, toNat_wordOf] at hsame
    by_contra hlt
    have hzero := BitVec.getLsbD_false_of_lt_ctz (x := current) (show l.val % 64 < _ by
      rw [← hbit]
      omega)
    rw [hzero] at hl
    cases hl
  · have hlater := of_decide_eq_true (Bool.and_eq_true_iff.mp hl).1
    rw [Fin.lt_def, toNat_wordOf] at hlater
    omega

end First

/-- An iterator yields the first of the low bits it has left, and keeps the others. -/
theorem next_spec (it : BlockIter) : it.left = [] ∧ it.next = none ∨
    ∃ low it', it.next = some (low.val, it') ∧ it.left = low :: it'.left := by
  cases it with
  | array lows =>
    cases lows with
    | nil => exact .inl ⟨rfl, rfl⟩
    | cons low lows => exact .inr ⟨low, .array lows, rfl, rfl⟩
  | bits words word current =>
    have hseek := seek_spec words word current
    rw [next]
    generalize seek words word current = out at hseek ⊢
    cases hseek with
    | through hleft => exact .inl ⟨hleft, rfl⟩
    | @found word' current' hne hleft =>
      have hbit : current'.ctz.toNat < 64 := by
        have hlt := BitVec.lt_def.mp (BitVec.ctz_lt_iff_ne_zero.mpr hne)
        simpa using hlt
      have hword' := word'.isLt
      have hfull : WORDS * 64 = 2 ^ 16 := rfl
      -- The first of the bits left.
      obtain ⟨first, hfirst⟩ : ∃ first : Low, first.val = word'.val * 64 + current'.ctz.toNat :=
        ⟨⟨_, by omega⟩, rfl⟩
      have hwordOf : wordOf first = word' := by
        rw [Fin.ext_iff, toNat_wordOf]
        omega
      have hbitOf : first.val % 64 = current'.ctz.toNat := by omega
      refine .inr ⟨first, .bits words word' (current' &&& (current' - 1#64)), ?_, ?_⟩
      · have hor : word'.val <<< 6 ||| current'.ctz.toNat = first.val := by
          rw [← Nat.shiftLeft_add_eq_or_of_lt (show current'.ctz.toNat < 2 ^ 6 from hbit),
            Nat.shiftLeft_eq, hfirst]
        rw [← hor]
        rfl
      · rw [← hleft, left, left]
        have hsplit := filter_first allLows_ascending (mem_allLows first)
          (first_held words hwordOf hbitOf hne) (first_least words hwordOf hbitOf)
        rw [hsplit]
        refine congrArg (first :: ·) (filter_congr fun l _ => ?_)
        by_cases hword : wordOf l = word'
        · have hiff : l ≠ first ↔ l.val % 64 ≠ current'.ctz.toNat := by
            rw [Ne, low_eq_iff, hwordOf, hbitOf, hword]
            simp
          rw [if_pos hword, if_pos hword, getLsbD_and_pred hne]
          simp only [hiff]
        · have hneq : l ≠ first := by
            rintro rfl
            exact hword hwordOf
          rw [if_neg hword, if_neg hword, decide_eq_true hneq, Bool.and_true]

/-- From some low bits on, an iterator has left those of the block. -/
theorem new_left {block : Block} (h : block.lows.Pairwise (· < ·)) (start : Low) :
    (new block start).left = block.lows.filter fun l => decide (start ≤ l) := by
  cases block with
  | array lows =>
    have hasc : Ascends (fun l => l) (Block.array lows).lows := h
    exact drop_partitionPoint hasc start
  | bits words =>
    rw [new, left, Block.lows, filter_filter]
    refine filter_congr fun l _ => ?_
    have hbit : l.val % 64 < 64 := Nat.mod_lt _ (by decide)
    by_cases hword : wordOf l = wordOf start
    · have hiff : start ≤ l ↔ start.val % 64 ≤ l.val % 64 := by
        rw [Fin.ext_iff, toNat_wordOf, toNat_wordOf] at hword
        rw [Fin.le_def]
        omega
      rw [if_pos hword, BitVec.getLsbD_and, BitVec.getLsbD_shiftLeft, BitVec.getLsbD_allOnes,
        and_63, held, hword, Bool.and_comm]
      have hless : l.val % 64 - start.val % 64 < 64 := by omega
      simp only [hiff, hbit, hless, decide_true, Bool.true_and, Bool.and_true, ← not_lt, decide_not]
    · have hiff : wordOf start < wordOf l ↔ start ≤ l := by
        rw [Fin.ext_iff, toNat_wordOf, toNat_wordOf] at hword
        rw [Fin.lt_def, Fin.le_def, toNat_wordOf, toNat_wordOf]
        omega
      rw [if_neg hword]
      simp only [hiff]

theorem collect_eq (it : BlockIter) {fuel : ℕ} (h : it.left.length < fuel) :
    it.collect fuel = it.left.map Fin.val := by
  induction fuel generalizing it with
  | zero => exact absurd h (Nat.not_lt_zero _)
  | succ fuel ih =>
    rw [collect]
    rcases next_spec it with ⟨hnil, hnext⟩ | ⟨low, it', hnext, hleft⟩
    · rw [hnext, hnil]
      rfl
    · rw [hleft, length_cons] at h
      rw [hnext, hleft, map_cons, ← ih it' (by omega)]

end BlockIter

theorem ofNat_val (low : Low) : Fin.ofNat (2 ^ 16) low.val = low :=
  Fin.ext (Nat.mod_eq_of_lt low.isLt)

/-- A block is collected whole. -/
theorem collect_new {block : Block} (h : block.lows.Pairwise (· < ·)) :
    ((BlockIter.new block 0).collect (2 ^ 16 + 1)).map (Fin.ofNat (2 ^ 16)) = block.lows := by
  have hleft : (BlockIter.new block 0).left = block.lows := by
    rw [BlockIter.new_left h]
    exact filter_eq_self.mpr fun l _ => decide_eq_true (Fin.zero_le l)
  have hlen : block.lows.length ≤ 2 ^ 16 := by
    have hcard := Finset.card_le_univ block.lows.toFinset
    rwa [toFinset_card_of_nodup h.nodup, Fintype.card_fin] at hcard
  rw [BlockIter.collect_eq _ (by rw [hleft]; omega), hleft, map_map]
  conv_rhs => rw [← map_id block.lows]
  exact map_congr_left fun l _ => ofNat_val l

/-! ### Writes to a block -/

/-- A block in order, counted, and in the form its size calls for. -/
structure Block.Ok (block : Block) (count : ℕ) : Prop where
  ascending : block.lows.Pairwise (· < ·)
  counted : count = block.lows.length
  array : ∀ lows, block = .array lows → count ≤ ARRAY_MAX
  bits : ∀ words, block = .bits words → ARRAY_MIN ≤ count

section Counts

variable {α : Type} [DecidableEq α] {a : α} {as as' : List α}

/-- A list with one member more. -/
theorem length_more (h : as.Nodup) (h' : as'.Nodup) (hmem : ∀ x, x ∈ as' ↔ x = a ∨ x ∈ as)
    (hnew : a ∉ as) : as'.length = as.length + 1 := by
  have hset : as'.toFinset = insert a as.toFinset := by
    ext x
    rw [mem_toFinset, Finset.mem_insert, mem_toFinset, hmem]
  rw [← toFinset_card_of_nodup h, ← toFinset_card_of_nodup h', hset,
    Finset.card_insert_of_notMem (by rwa [mem_toFinset])]

/-- A list with one member less. -/
theorem length_less (h : as.Nodup) (h' : as'.Nodup) (hmem : ∀ x, x ∈ as' ↔ x ∈ as ∧ x ≠ a)
    (hold : a ∈ as) : as'.length = as.length - 1 := by
  have hset : as'.toFinset = as.toFinset.erase a := by
    ext x
    rw [mem_toFinset, Finset.mem_erase, mem_toFinset, hmem, and_comm]
  rw [← toFinset_card_of_nodup h, ← toFinset_card_of_nodup h', hset,
    Finset.card_erase_of_mem (by rwa [mem_toFinset])]

end Counts

namespace Block

variable {block : Block} {count : ℕ}

theorem ok_array {lows : List Low} (h : lows.Pairwise (· < ·)) (hcount : count = lows.length)
    (hmax : count ≤ ARRAY_MAX) : Ok (.array lows) count := by
  refine ⟨?_, ?_, fun _ _ => hmax, fun _ heq => by cases heq⟩
  · rwa [Block.lows]
  · rwa [Block.lows]

theorem mem_lows_bits {l : Low} : l ∈ (Block.bits words).lows ↔ held words l = true := by
  rw [Block.lows, mem_filter]
  exact and_iff_right (mem_allLows l)

theorem bits_ascending (words : Bits) : (Block.bits words).lows.Pairwise (· < ·) := by
  rw [Block.lows]
  exact allLows_ascending.filter _

theorem ok_bits (hcount : count = (Block.bits words).lows.length) (hmin : ARRAY_MIN ≤ count) :
    Ok (.bits words) count :=
  ⟨bits_ascending words, hcount, fun _ heq => (by cases heq), fun _ _ => hmin⟩

/-- Where low bits go that an array does not hold. -/
theorem place_new {lows : List Low} (h : lows.Pairwise (· < ·)) (hnew : low ∉ lows) :
    ∃ as bs, lows = as ++ bs ∧ (∀ l ∈ as, l < low) ∧ (∀ l ∈ bs, low < l) ∧
      place lows low = .error as.length := by
  have hfinds := search_finds low (show Ascends (fun l => l) lows from h)
  rw [place]
  rcases eq_nil_or_concat' lows with rfl | ⟨ls, last, rfl⟩
  · exact ⟨[], [], rfl, by simp, by simp, rfl⟩
  rw [getLast?_concat]
  simp only
  split_ifs with hlast
  · refine ⟨ls ++ [last], [], (append_nil _).symm, fun l hl => ?_, by simp, rfl⟩
    rcases mem_append.mp hl with hl | hl
    · exact ((pairwise_append.mp h).2.2 l hl last (mem_singleton.mpr rfl)).trans hlast
    · rwa [mem_singleton.mp hl]
  · rw [binarySearch]
    generalize search (fun l => l) low (ls ++ [last]) = out at hfinds ⊢
    cases hfinds with
    | @here as bs a hl ha has hbs =>
      obtain rfl : a = low := ha
      exact absurd (hl ▸ mem_append_right _ mem_cons_self) hnew
    | @absent as bs hl has hbs => exact ⟨as, bs, hl, has, hbs, rfl⟩

theorem insert_ok (h : block.Ok count) (hnew : low ∉ block.lows) :
    ∃ block', block.insert low count = (block', true) ∧ block'.Ok (count + 1) ∧
      ∀ l, l ∈ block'.lows ↔ l = low ∨ l ∈ block.lows := by
  have hcounts : ∀ block' : Block, block'.lows.Pairwise (· < ·) →
      (∀ l, l ∈ block'.lows ↔ l = low ∨ l ∈ block.lows) → count + 1 = block'.lows.length :=
    fun block' hasc hmem => by rw [length_more h.ascending.nodup hasc.nodup hmem hnew, ← h.counted]
  cases block with
  | array lows =>
    have hasc : lows.Pairwise (· < ·) := h.ascending
    obtain ⟨as, bs, hl, has, hbs, hplace⟩ := place_new hasc hnew
    rw [insert, hplace]
    simp only
    split_ifs with hmax
    · -- The array would outgrow a bitmap.
      have hmem : ∀ l, l ∈ (Block.bits ((lows.foldl Bits.setBit .zeros).setBit low)).lows ↔
          l = low ∨ l ∈ (Block.array lows).lows := by
        intro l
        rw [mem_lows_bits, held_setBit, held_foldl, held_zeros, Bool.or_false, Bool.or_eq_true,
          decide_eq_true_iff, decide_eq_true_iff]
        rfl
      refine ⟨_, rfl, ok_bits (hcounts _ (bits_ascending _) hmem) ?_, hmem⟩
      rw [hmax]
      decide
    · have hasc' : (lows.insertIdx as.length low).Pairwise (· < ·) := by
        rw [hl, insertIdx_mid]
        exact Ascends.insert (show Ascends (fun l => l) (as ++ bs) from hl ▸ hasc) has hbs
      have hmem : ∀ l, l ∈ (Block.array (lows.insertIdx as.length low)).lows ↔
          l = low ∨ l ∈ (Block.array lows).lows := by
        intro l
        rw [Block.lows, Block.lows, hl, insertIdx_mid, mem_append, mem_cons, mem_append]
        exact or_left_comm
      have hle := h.array lows rfl
      exact ⟨_, rfl, ok_array hasc' (hcounts (.array _) hasc' hmem) (by omega), hmem⟩
  | bits words =>
    have hmem : ∀ l, l ∈ (Block.bits (words.setBit low)).lows ↔
        l = low ∨ l ∈ (Block.bits words).lows := by
      intro l
      rw [mem_lows_bits, mem_lows_bits, held_setBit, Bool.or_eq_true, decide_eq_true_iff]
    have hfalse : held words low = false := by
      rw [mem_lows_bits] at hnew
      exact Bool.eq_false_iff.mpr hnew
    refine ⟨_, ?_, ok_bits (hcounts _ (bits_ascending _) hmem)
      ((h.bits words rfl).trans (Nat.le_succ _)), hmem⟩
    rw [insert, and_mask_eq_zero.mpr hfalse]
    rfl

theorem remove_ok (h : block.Ok count) (hold : low ∈ block.lows) :
    ∃ block', block.remove low count = (block', true) ∧ block'.Ok (count - 1) ∧
      ∀ l, l ∈ block'.lows ↔ l ∈ block.lows ∧ l ≠ low := by
  have hcounts : ∀ block' : Block, block'.lows.Pairwise (· < ·) →
      (∀ l, l ∈ block'.lows ↔ l ∈ block.lows ∧ l ≠ low) → count - 1 = block'.lows.length :=
    fun block' hasc hmem => by rw [length_less h.ascending.nodup hasc.nodup hmem hold, ← h.counted]
  cases block with
  | array lows =>
    have hasc : lows.Pairwise (· < ·) := h.ascending
    have hfinds := search_finds low (show Ascends (fun l => l) lows from hasc)
    have hle := h.array lows rfl
    rw [remove, binarySearch]
    generalize search (fun l => l) low lows = out at hfinds ⊢
    cases hfinds with
    | @here as bs a hl ha has hbs =>
      obtain rfl : a = low := ha
      have hasc' : (lows.eraseIdx as.length).Pairwise (· < ·) :=
        hasc.sublist (eraseIdx_sublist lows as.length)
      have hmem : ∀ l, l ∈ (Block.array (lows.eraseIdx as.length)).lows ↔
          l ∈ (Block.array lows).lows ∧ l ≠ a := by
        intro l
        rw [Block.lows, Block.lows, hl, eraseIdx_mid, mem_append, mem_append, mem_cons]
        constructor
        · rintro (hl | hl)
          · exact ⟨.inl hl, ne_of_lt (has l hl)⟩
          · exact ⟨.inr (.inr hl), ne_of_gt (hbs l hl)⟩
        · rintro ⟨hl | rfl | hl, hne⟩
          · exact .inl hl
          · exact absurd rfl hne
          · exact .inr hl
      exact ⟨_, rfl, ok_array hasc' (hcounts (.array _) hasc' hmem) (by omega), hmem⟩
    | @absent as bs hl has hbs =>
      have hin : low ∈ as ++ bs := hl ▸ hold
      rcases mem_append.mp hin with hin | hin
      · exact absurd (has low hin) (lt_irrefl _)
      · exact absurd (hbs low hin) (lt_irrefl _)
  | bits words =>
    have hheld : held words low = true := mem_lows_bits.mp hold
    have hmin := h.bits words rfl
    have hmem : ∀ l, l ∈ (Block.bits (words.clearBit low)).lows ↔
        l ∈ (Block.bits words).lows ∧ l ≠ low := by
      intro l
      rw [mem_lows_bits, mem_lows_bits, held_clearBit, Bool.and_eq_true, decide_eq_true_iff]
    have hcount := hcounts _ (bits_ascending _) hmem
    rw [remove, if_neg (by rw [and_mask_eq_zero, hheld]; exact Bool.noConfusion)]
    simp only
    split_ifs with hless
    · -- Few enough for an array again.
      have hlows : ((BlockIter.new (.bits (words.clearBit low)) 0).collect (2 ^ 16 + 1)).map
          (Fin.ofNat (2 ^ 16)) = (Block.bits (words.clearBit low)).lows :=
        collect_new (bits_ascending _)
      rw [hlows]
      refine ⟨_, rfl, ok_array (bits_ascending _) hcount ?_, hmem⟩
      have hmax : ARRAY_MIN ≤ ARRAY_MAX := by decide
      omega
    · exact ⟨_, rfl, ok_bits hcount (by omega), hmem⟩

end Block

end Bitmap

end LoraDb
