import LoraDb.Floats
import LoraDb.Temporal
import LoraDb.LoraValue
import LoraDb.StrPostings

/-!
# Index Keys

The key a property value is indexed under, and the order a sorted index keeps its keys in.
Integers and floats share one run, by exact value, an integer before the float that equals it.

## Main results

* `compare_code`: a key's code, one list of numbers, orders as the key does.
* the order of keys is linear.
-/

open List Binary64

namespace LoraDb

open StrIndex (Byte Key)

namespace F64

/-- A float's bits, so that they sort as it does; zeros are one. The clear top bit of a
positive float is set, the bits of a negative one are complemented. -/
def sortableBits (f : F64) : UInt64 :=
  let bits := if f.mag = 0 then 0 else f.bits.toNat
  .ofNat (if bits < 2 ^ 63 then bits + 2 ^ 63 else 2 ^ 64 - 1 - bits)

def ofSortableBits (bits : UInt64) : F64 :=
  ⟨.ofNat (if 2 ^ 63 ≤ bits.toNat then bits.toNat - 2 ^ 63 else 2 ^ 64 - 1 - bits.toNat)⟩

/-- `f as i64`: the whole part, saturating. -/
def asInt64 (f : F64) : Int64 :=
  if f.isNaN then 0 else .ofInt (max (-(2 ^ 63)) (min (2 ^ 63 - 1) f.trunc))

def INFINITY : F64 := ⟨0x7FF0000000000000⟩

def NEG_INFINITY : F64 := ⟨0xFFF0000000000000⟩

end F64

/-- The bytes of a text. -/
def asBytes (text : String) : Key := text.toUTF8.data.toList.map UInt8.toFin

inductive TemporalKind where
  | date | localTime | time | localDateTime | dateTime

/-- Kinds in the order they are declared. -/
def TemporalKind.rank : TemporalKind → ℕ
  | .date => 0
  | .localTime => 1
  | .time => 2
  | .localDateTime => 3
  | .dateTime => 4

/-- The key of an indexed value. Texts and byte strings are their bytes. -/
inductive PropertyIndexKey where
  | null
  | bool (value : Bool)
  | int (value : Int64)
  /-- By its sortable bits. -/
  | float (bits : UInt64)
  | string (text : Key)
  | binary (bytes : Key)
  | list (keys : List PropertyIndexKey)
  | map (entries : List (Key × PropertyIndexKey))
  | temporal (kind : TemporalKind) (nanos : ℤ) (offset : Int32) (zone : Option ZoneId)

namespace PropertyIndexKey

def tag : PropertyIndexKey → ℕ
  | .null => 0
  | .bool _ => 1
  | .int _ | .float _ => 2
  | .string _ => 4
  | .binary _ => 5
  | .list _ => 6
  | .map _ => 7
  | .temporal .. => 8

mutual

/-- The order of keys: by tag, then by what they hold. -/
def cmp : PropertyIndexKey → PropertyIndexKey → Ordering
  | .bool a, .bool b => compare a b
  | .int a, .int b => compare a.toInt b.toInt
  | .float a, .float b => compare a.toNat b.toNat
  | .int a, .float b => (F64.intFloatCmp a (.ofSortableBits b)).then .lt
  | .float a, .int b => (F64.intFloatCmp b (.ofSortableBits a)).swap.then .gt
  | .string a, .string b => compare a b
  | .binary a, .binary b => compare a b
  | .list as, .list bs => cmpList as bs
  | .map as, .map bs => cmpEntries as bs
  | .temporal k n o z, .temporal k' n' o' z' =>
    (compare k.rank k'.rank).then ((compare n n').then ((compare o.toInt o'.toInt).then
      (compare (zoneKey z) (zoneKey z'))))
  | a, b => compare a.tag b.tag
termination_by structural a => a

/-- The first pair that differs decides; a shorter list comes first. -/
def cmpList : List PropertyIndexKey → List PropertyIndexKey → Ordering
  | [], [] => .eq
  | [], _ :: _ => .lt
  | _ :: _, [] => .gt
  | a :: as, b :: bs => (cmp a b).then (cmpList as bs)
termination_by structural as => as

def cmpEntries : List (Key × PropertyIndexKey) → List (Key × PropertyIndexKey) → Ordering
  | [], [] => .eq
  | [], _ :: _ => .lt
  | _ :: _, [] => .gt
  | (k, a) :: as, (k', b) :: bs => (compare k k').then ((cmp a b).then (cmpEntries as bs))
termination_by structural as => as

end

mutual

/-- The key of a value; `none` for a value that is not indexed. -/
def fromValue : PropertyValue → Option PropertyIndexKey
  | .null => some .null
  | .bool v => some (.bool v)
  | .int v => some (.int v)
  | .float v => if v.isNaN then none else some (.float v.sortableBits)
  | .string v => some (.string (asBytes v))
  | .binary v => some (.binary (v.segments.flatten.map UInt8.toFin))
  | .list values => (fromValues values).map .list
  | .map entries => (fromEntries entries).map .map
  | .date v => some (.temporal .date v.orderNanos 0 none)
  | .localTime v => some (.temporal .localTime v.orderNanos 0 none)
  | .time v => some (.temporal .time v.orderNanos v.offsetSeconds none)
  | .localDateTime v => some (.temporal .localDateTime v.orderNanos 0 none)
  | .dateTime v => some (.temporal .dateTime v.orderNanos v.offsetSeconds v.zone)
  | .duration _ => none
  | .point _ => none
  | .vector _ => none
termination_by structural v => v

/-- The keys of a list's elements, if all have one. -/
def fromValues : List PropertyValue → Option (List PropertyIndexKey)
  | [] => some []
  | v :: vs =>
    match fromValue v, fromValues vs with
    | some key, some keys => some (key :: keys)
    | _, _ => none
termination_by structural vs => vs

def fromEntries : List (String × PropertyValue) → Option (List (Key × PropertyIndexKey))
  | [] => some []
  | (k, v) :: vs =>
    match fromValue v, fromEntries vs with
    | some key, some keys => some ((asBytes k, key) :: keys)
    | _, _ => none
termination_by structural vs => vs

end

/-- The smallest key of a value at least `value`. A whole float widens to the integer. -/
def rangeLower (value : PropertyValue) : Option PropertyIndexKey :=
  match fromValue value with
  | some (.temporal kind nanos _ _) => some (.temporal kind nanos Int32.minValue none)
  | some (.float bits) =>
    let f := F64.ofSortableBits bits
    if F64.intFloatCmp f.asInt64 f = .eq then some (.int f.asInt64) else some (.float bits)
  | key => key

/-- The largest key of a value at most `value`. An integer widens to the float that equals
it, if there is one. -/
def rangeUpper (value : PropertyValue) : Option PropertyIndexKey :=
  match fromValue value with
  | some (.temporal kind nanos _ _) => some (.temporal kind nanos Int32.maxValue none)
  | some (.int i) =>
    let f := F64.ofInt i
    if F64.intFloatCmp i f = .eq then some (.float f.sortableBits) else some (.int i)
  | key => key

/-- The least key of a temporal or numeric key's kind. -/
def kindFloor : PropertyIndexKey → Option PropertyIndexKey
  | .temporal kind .. => some (.temporal kind (-(2 ^ 127)) Int32.minValue none)
  | .int _ | .float _ => some (.float F64.NEG_INFINITY.sortableBits)
  | _ => none

def kindCeiling : PropertyIndexKey → Option PropertyIndexKey
  | .temporal kind .. => some (.temporal kind (2 ^ 127 - 1) Int32.maxValue none)
  | .int _ | .float _ => some (.float F64.INFINITY.sortableBits)
  | _ => none

/-! ### Codes -/

/-- A text's code ends in 0, so no code starts another one. -/
def bytesCode : Key → List ℤ
  | [] => [0]
  | byte :: bytes => (byte.val + 1 : ℤ) :: bytesCode bytes

mutual

/-- A key as a list of numbers that sorts as the key does. -/
def code : PropertyIndexKey → List ℤ
  | .null => [0]
  | .bool v => [1, v.toNat]
  | .int i => [2, i.toInt * ONE, 0, 0]
  | .float bits => [2, (F64.ofSortableBits bits).scaled, 1, bits.toNat]
  | .string text => 4 :: bytesCode text
  | .binary bytes => 5 :: bytesCode bytes
  | .list keys => 6 :: codes keys
  | .map entries => 7 :: entryCodes entries
  | .temporal k n o z => [8, k.rank, n, o.toInt, zoneKey z]
termination_by structural a => a

def codes : List PropertyIndexKey → List ℤ
  | [] => [0]
  | key :: keys => 1 :: (code key ++ codes keys)
termination_by structural keys => keys

def entryCodes : List (Key × PropertyIndexKey) → List ℤ
  | [] => [0]
  | (name, key) :: entries => 1 :: (bytesCode name ++ (code key ++ entryCodes entries))
termination_by structural entries => entries

end

theorem compare_cons {α : Type} [Ord α] {x y : α} {s t : List α} :
    compare (x :: s) (y :: t) = (compare x y).then (compare s t) :=
  List.compare_cons_cons

theorem compare_natCast (m n : ℕ) : compare (m : ℤ) (n : ℤ) = compare m n :=
  Comparing.compare_congr (fun h => by omega) (fun h => by omega) (fun h => by omega)

theorem compare_bytesCode (a b : Key) (s t : List ℤ) :
    compare (bytesCode a ++ s) (bytesCode b ++ t) = (compare a b).then (compare s t) := by
  induction a generalizing b with
  | nil =>
    cases b with
    | nil =>
      rw [bytesCode, cons_append, cons_append, compare_cons, Std.ReflOrd.compare_self,
        Std.ReflOrd.compare_self]
      rfl
    | cons y b =>
      have hlt : compare (0 : ℤ) (y.val + 1) = .lt := compare_lt_iff_lt.mpr (by omega)
      have hnil : compare ([] : Key) (y :: b) = .lt := rfl
      rw [bytesCode, bytesCode, cons_append, cons_append, compare_cons, hlt, hnil]
      rfl
  | cons x a ih =>
    cases b with
    | nil =>
      have hgt : compare (x.val + 1 : ℤ) 0 = .gt := compare_gt_iff_gt.mpr (by omega)
      have hnil : compare (x :: a) ([] : Key) = .gt := rfl
      rw [bytesCode, bytesCode, cons_append, cons_append, compare_cons, hgt, hnil]
      rfl
    | cons y b =>
      have hbyte : compare (x.val + 1 : ℤ) (y.val + 1) = compare x y :=
        Comparing.compare_congr (fun h => Fin.lt_def.mpr (by omega))
          (fun h => Fin.ext (by omega)) (fun h => Fin.lt_def.mpr (by omega))
      rw [bytesCode, bytesCode, cons_append, cons_append, compare_cons, compare_cons, ih,
        hbyte, Ordering.then_assoc]

theorem code_tag (a : PropertyIndexKey) : ∃ rest, code a = (a.tag : ℤ) :: rest := by
  cases a <;> exact ⟨_, rfl⟩

variable {a b : PropertyIndexKey}

theorem cmp_tag (h : a.tag ≠ b.tag) : cmp a b = compare a.tag b.tag := by
  cases a <;> cases b <;> first | rfl | exact absurd rfl h

theorem scaled_ofSortableBits (x : UInt64) :
    (2 ^ 63 ≤ x.toNat ∧ (F64.ofSortableBits x).scaled = magnitude (x.toNat - 2 ^ 63)) ∨
      (x.toNat < 2 ^ 63 ∧
        (F64.ofSortableBits x).scaled = -(magnitude (2 ^ 63 - 1 - x.toNat) : ℤ)) := by
  have hlt := x.toNat_lt
  by_cases hlarge : 2 ^ 63 ≤ x.toNat
  · have hnat : (F64.ofSortableBits x).bits.toNat = x.toNat - 2 ^ 63 := by
      rw [F64.ofSortableBits, if_pos hlarge, UInt64.toNat_ofNat']
      omega
    have hneg : (F64.ofSortableBits x).isNegative = false := by
      rw [F64.isNegative, hnat]
      exact decide_eq_false (by omega)
    have hmag : (F64.ofSortableBits x).mag = x.toNat - 2 ^ 63 := by
      rw [F64.mag, hnat]
      omega
    refine .inl ⟨hlarge, ?_⟩
    rw [F64.scaled, hneg, hmag]
    rfl
  · have hnat : (F64.ofSortableBits x).bits.toNat = 2 ^ 64 - 1 - x.toNat := by
      rw [F64.ofSortableBits, if_neg hlarge, UInt64.toNat_ofNat']
      omega
    have hneg : (F64.ofSortableBits x).isNegative = true := by
      rw [F64.isNegative, hnat]
      exact decide_eq_true (by omega)
    have hmag : (F64.ofSortableBits x).mag = 2 ^ 63 - 1 - x.toNat := by
      rw [F64.mag, hnat]
      omega
    refine .inr ⟨by omega, ?_⟩
    rw [F64.scaled, hneg, hmag]
    rfl

/-- Floats with more sortable bits are no less. -/
theorem scaled_mono {x y : UInt64} (h : x.toNat ≤ y.toNat) :
    (F64.ofSortableBits x).scaled ≤ (F64.ofSortableBits y).scaled := by
  have hle : ∀ a b : ℕ, a ≤ b → magnitude a ≤ magnitude b := fun _ _ hab =>
    magnitude_strictMono.monotone hab
  have hxy := hle (x.toNat - 2 ^ 63) (y.toNat - 2 ^ 63) (by omega)
  have hyx := hle (2 ^ 63 - 1 - y.toNat) (2 ^ 63 - 1 - x.toNat) (by omega)
  rcases scaled_ofSortableBits x with ⟨hx, hsx⟩ | ⟨hx, hsx⟩ <;>
    rcases scaled_ofSortableBits y with ⟨hy, hsy⟩ | ⟨hy, hsy⟩ <;>
    rw [hsx, hsy] <;> omega

theorem compare_float (x y : UInt64) :
    (compare (F64.ofSortableBits x).scaled (F64.ofSortableBits y).scaled).then
      (compare (x.toNat : ℤ) y.toNat) = compare x.toNat y.toNat :=
  Comparing.compare_then_congr (fun hlt => not_le.mp fun hle => not_lt.mpr (scaled_mono hle) hlt)
    (fun _ => compare_natCast _ _)
    (fun hgt => not_le.mp fun hle => not_lt.mpr (scaled_mono hle) hgt)

theorem compare_same (x : ℤ) (o : Ordering) : (compare x x).then o = o := by
  rw [Std.ReflOrd.compare_self]
  rfl

mutual

/-- A key's code sorts as the key does, whatever follows it. -/
theorem compare_code (a b : PropertyIndexKey) (s t : List ℤ) :
    compare (code a ++ s) (code b ++ t) = (cmp a b).then (compare s t) := by
  by_cases htag : a.tag = b.tag
  · cases a with
    | null => cases b with
      | null => exact compare_cons
      | _ => cases htag
    | bool x => cases b with
      | bool y =>
        cases x <;> cases y <;> rfl
      | _ => cases htag
    | int i => cases b with
      | int j =>
        simp only [code, cmp, cons_append, nil_append, compare_cons, compare_same,
          F64.compare_mul_ONE]
      | float y =>
        have hone : compare (0 : ℤ) 1 = .lt := rfl
        simp only [code, cmp, cons_append, nil_append, compare_cons, compare_same, hone,
          F64.intFloatCmp_eq, Ordering.then_assoc, Ordering.lt_then]
      | _ => cases htag
    | float x => cases b with
      | int j =>
        have hone : compare (1 : ℤ) 0 = .gt := rfl
        simp only [code, cmp, cons_append, nil_append, compare_cons, compare_same, hone,
          F64.intFloatCmp_eq, Ordering.then_assoc, Ordering.gt_then, ← Std.OrientedOrd.eq_swap]
      | float y =>
        simp only [code, cmp, cons_append, nil_append, compare_cons, compare_same,
          ← compare_float x y, Ordering.then_assoc]
      | _ => cases htag
    | string x => cases b with
      | string y =>
        rw [code, code, cmp, cons_append, cons_append, compare_cons, compare_bytesCode,
          Std.ReflOrd.compare_self]
        rfl
      | _ => cases htag
    | binary x => cases b with
      | binary y =>
        rw [code, code, cmp, cons_append, cons_append, compare_cons, compare_bytesCode,
          Std.ReflOrd.compare_self]
        rfl
      | _ => cases htag
    | list as => cases b with
      | list bs =>
        rw [code, code, cmp, cons_append, cons_append, compare_cons, compare_codes as bs,
          Std.ReflOrd.compare_self]
        rfl
      | _ => cases htag
    | map as => cases b with
      | map bs =>
        rw [code, code, cmp, cons_append, cons_append, compare_cons, compare_entryCodes as bs,
          Std.ReflOrd.compare_self]
        rfl
      | _ => cases htag
    | temporal k n o z => cases b with
      | temporal k' n' o' z' =>
        simp only [code, cmp, cons_append, nil_append, compare_cons, compare_same,
          compare_natCast, Ordering.then_assoc]
      | _ => cases htag
  · obtain ⟨rest, hrest⟩ := code_tag a
    obtain ⟨rest', hrest'⟩ := code_tag b
    rw [hrest, hrest', cons_append, cons_append, compare_cons, compare_natCast, cmp_tag htag]
    rcases Nat.lt_or_gt_of_ne htag with hlt | hgt
    · rw [compare_lt_iff_lt.mpr hlt]
      rfl
    · rw [compare_gt_iff_gt.mpr hgt]
      rfl
termination_by structural a

theorem compare_codes (as bs : List PropertyIndexKey) (s t : List ℤ) :
    compare (codes as ++ s) (codes bs ++ t) = (cmpList as bs).then (compare s t) := by
  cases as with
  | nil => cases bs with
    | nil => exact compare_cons
    | cons b bs =>
      rw [codes, codes, cons_append, cons_append, compare_cons]
      rfl
  | cons a as => cases bs with
    | nil =>
      rw [codes, codes, cons_append, cons_append, compare_cons]
      rfl
    | cons b bs =>
      rw [codes, codes, cmpList, cons_append, cons_append, compare_cons, append_assoc,
        append_assoc, compare_code a b, compare_codes as bs, Std.ReflOrd.compare_self,
        Ordering.then_assoc]
      rfl
termination_by structural as

theorem compare_entryCodes (as bs : List (Key × PropertyIndexKey)) (s t : List ℤ) :
    compare (entryCodes as ++ s) (entryCodes bs ++ t) = (cmpEntries as bs).then (compare s t) := by
  cases as with
  | nil => cases bs with
    | nil => exact compare_cons
    | cons b bs =>
      rw [entryCodes, entryCodes, cons_append, cons_append, compare_cons]
      rfl
  | cons a as => cases bs with
    | nil =>
      rw [entryCodes, entryCodes, cons_append, cons_append, compare_cons]
      rfl
    | cons b bs =>
      obtain ⟨name, a⟩ := a
      obtain ⟨name', b⟩ := b
      rw [entryCodes, entryCodes, cmpEntries, cons_append, cons_append, compare_cons,
        append_assoc, append_assoc, append_assoc, append_assoc, compare_bytesCode,
        compare_code a b, compare_entryCodes as bs, Std.ReflOrd.compare_self,
        Ordering.then_assoc, Ordering.then_assoc]
      rfl
termination_by structural as

end

theorem zoneKey_inj {z z' : Option ZoneId} (h : zoneKey z = zoneKey z') : z = z' := by
  have hpos : ∀ z : ZoneId, z.index.toNat ≠ 0 := fun z hz => z.nonzero (UInt16.toNat_inj.mp hz)
  cases z with
  | none =>
    cases z' with
    | none => rfl
    | some z' => exact absurd h.symm (hpos z')
  | some z =>
    cases z' with
    | none => exact absurd h (hpos z)
    | some z' =>
      obtain ⟨index, _⟩ := z
      obtain ⟨index', _⟩ := z'
      have heq : index = index' := UInt16.toNat_inj.mp h
      subst heq
      rfl

theorem rank_inj {k k' : TemporalKind} (h : k.rank = k'.rank) : k = k' := by
  cases k <;> cases k' <;> first | rfl | cases h

mutual

/-- Keys that do not order are the same. -/
theorem eq_of_cmp (a b : PropertyIndexKey) (h : cmp a b = .eq) : a = b := by
  by_cases htag : a.tag = b.tag
  · cases a with
    | null => cases b with
      | null => rfl
      | _ => cases htag
    | bool x => cases b with
      | bool y =>
        rw [cmp, compare_eq_iff_eq] at h
        rw [h]
      | _ => cases htag
    | int i => cases b with
      | int j =>
        rw [cmp, compare_eq_iff_eq] at h
        rw [Int64.toInt_inj.mp h]
      | float y =>
        rw [cmp, Ordering.then_eq_eq] at h
        cases h.2
      | _ => cases htag
    | float x => cases b with
      | int j =>
        rw [cmp, Ordering.then_eq_eq] at h
        cases h.2
      | float y =>
        rw [cmp, compare_eq_iff_eq] at h
        rw [UInt64.toNat_inj.mp h]
      | _ => cases htag
    | string x => cases b with
      | string y =>
        rw [cmp, Std.LawfulEqOrd.compare_eq_iff_eq] at h
        rw [h]
      | _ => cases htag
    | binary x => cases b with
      | binary y =>
        rw [cmp, Std.LawfulEqOrd.compare_eq_iff_eq] at h
        rw [h]
      | _ => cases htag
    | list as => cases b with
      | list bs =>
        rw [cmp] at h
        rw [eq_of_cmpList as bs h]
      | _ => cases htag
    | map as => cases b with
      | map bs =>
        rw [cmp] at h
        rw [eq_of_cmpEntries as bs h]
      | _ => cases htag
    | temporal k n o z => cases b with
      | temporal k' n' o' z' =>
        rw [cmp, Ordering.then_eq_eq, Ordering.then_eq_eq, Ordering.then_eq_eq,
          compare_eq_iff_eq, compare_eq_iff_eq, compare_eq_iff_eq, compare_eq_iff_eq] at h
        obtain ⟨hkind, hnanos, hoffset, hzone⟩ := h
        rw [rank_inj hkind, hnanos, Int32.toInt_inj.mp hoffset, zoneKey_inj hzone]
      | _ => cases htag
  · rw [cmp_tag htag, compare_eq_iff_eq] at h
    exact absurd h htag
termination_by structural a

theorem eq_of_cmpList (as bs : List PropertyIndexKey) (h : cmpList as bs = .eq) : as = bs := by
  cases as with
  | nil => cases bs with
    | nil => rfl
    | cons b bs => cases h
  | cons a as => cases bs with
    | nil => cases h
    | cons b bs =>
      rw [cmpList, Ordering.then_eq_eq] at h
      rw [eq_of_cmp a b h.1, eq_of_cmpList as bs h.2]
termination_by structural as

theorem eq_of_cmpEntries (as bs : List (Key × PropertyIndexKey)) (h : cmpEntries as bs = .eq) :
    as = bs := by
  cases as with
  | nil => cases bs with
    | nil => rfl
    | cons b bs => cases h
  | cons a as => cases bs with
    | nil => cases h
    | cons b bs =>
      obtain ⟨name, a⟩ := a
      obtain ⟨name', b⟩ := b
      rw [cmpEntries, Ordering.then_eq_eq, Ordering.then_eq_eq] at h
      rw [Std.LawfulEqOrd.compare_eq_iff_eq.mp h.1, eq_of_cmp a b h.2.1,
        eq_of_cmpEntries as bs h.2.2]
termination_by structural as

end

/-! ### The order of keys -/

theorem cmp_code (a b : PropertyIndexKey) : cmp a b = compare (code a) (code b) := by
  have hcode := compare_code a b [] []
  rw [append_nil, append_nil, Std.ReflOrd.compare_self, Ordering.then_eq] at hcode
  exact hcode.symm

instance : LE PropertyIndexKey := ⟨fun a b => (cmp a b).isLE = true⟩

instance : LT PropertyIndexKey := ⟨fun a b => cmp a b = .lt⟩

theorem le_iff : a ≤ b ↔ (cmp a b).isLE = true := .rfl

theorem lt_iff : a < b ↔ cmp a b = .lt := .rfl

theorem cmp_swap (a b : PropertyIndexKey) : cmp a b = (cmp b a).swap := by
  rw [cmp_code, cmp_code]
  exact Std.OrientedOrd.eq_swap

/-- The order of keys is linear. -/
instance : LinearOrder PropertyIndexKey where
  le_refl a := by
    rw [le_iff, cmp_code, Std.ReflOrd.compare_self]
    rfl
  le_trans a b c hab hbc := by
    rw [le_iff, cmp_code] at hab hbc ⊢
    exact Std.TransCmp.isLE_trans hab hbc
  lt_iff_le_not_ge a b := by
    rw [lt_iff, le_iff, le_iff, cmp_swap b a]
    cases cmp a b <;> simp
  le_antisymm a b hab hba := by
    rw [le_iff] at hab hba
    rw [cmp_swap b a] at hba
    refine eq_of_cmp a b ?_
    cases h : cmp a b with
    | eq => rfl
    | lt =>
      rw [h] at hba
      cases hba
    | gt =>
      rw [h] at hab
      cases hab
  le_total a b := by
    rw [le_iff, le_iff, cmp_swap b a]
    cases cmp a b <;> simp
  toDecidableLE a b := inferInstanceAs (Decidable ((cmp a b).isLE = true))
  toDecidableEq a b := decidable_of_iff (cmp a b = .eq) ⟨eq_of_cmp a b, fun h => by
    rw [h, cmp_code, Std.ReflOrd.compare_self]⟩
  toDecidableLT a b := inferInstanceAs (Decidable (cmp a b = .lt))

/-- Keys of another kind order by their tags. -/
theorem lt_of_tag (h : a.tag < b.tag) : a < b := by
  rw [lt_iff, cmp_tag (ne_of_lt h), compare_lt_iff_lt]
  exact h

theorem tag_le (h : a ≤ b) : a.tag ≤ b.tag :=
  not_lt.mp fun hlt => not_lt.mpr h (lt_of_tag hlt)

end PropertyIndexKey

end LoraDb
