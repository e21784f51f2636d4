import Mathlib.Data.String.Basic
import LoraDb.SortedMap

/-!
# Property Values

The values a node or relationship property can hold, field by field as the store declares
them. Two conventions:

* a float is its bit pattern (`F64`, `F32`), since storing and comparing records never
  computes with it;
* a nested map is the list of its entries. What the source's ordered maps add, strictly
  ascending keys at every depth, is `PropertyValue.keyed`; the top-level property bag
  carries it as a field (`PropertyMap.sorted`).
-/

namespace LoraDb

/-- A 64-bit float, by its bits. -/
structure F64 where
  bits : UInt64
deriving DecidableEq

/-- A 32-bit float, by its bits. -/
structure F32 where
  bits : UInt32
deriving DecidableEq

/-- A named time zone: a nonzero index into the zone database. -/
structure ZoneId where
  index : UInt16
  nonzero : index ≠ 0
deriving DecidableEq

structure LoraDate where
  year : Int32
  month : UInt32
  day : UInt32
deriving DecidableEq

structure LoraTime where
  hour : UInt32
  minute : UInt32
  second : UInt32
  nanosecond : UInt32
  offsetSeconds : Int32
deriving DecidableEq

structure LoraLocalTime where
  hour : UInt32
  minute : UInt32
  second : UInt32
  nanosecond : UInt32
deriving DecidableEq

structure LoraDateTime where
  year : Int32
  month : UInt32
  day : UInt32
  hour : UInt32
  minute : UInt32
  second : UInt32
  nanosecond : UInt32
  offsetSeconds : Int32
  /-- The named zone the value is in, if any. -/
  zone : Option ZoneId
deriving DecidableEq

structure LoraLocalDateTime where
  year : Int32
  month : UInt32
  day : UInt32
  hour : UInt32
  minute : UInt32
  second : UInt32
  nanosecond : UInt32
deriving DecidableEq

structure LoraDuration where
  months : Int64
  days : Int64
  seconds : Int64
  nanoseconds : Int64
deriving DecidableEq

structure LoraPoint where
  x : F64
  y : F64
  /-- `none` for 2D points. -/
  z : Option F64
  srid : UInt32
deriving DecidableEq

/-- The coordinates of a vector, one constructor for each coordinate type. -/
inductive VectorValues where
  | float64 (values : List F64)
  | float32 (values : List F32)
  | integer64 (values : List Int64)
  | integer32 (values : List Int32)
  | integer16 (values : List Int16)
  | integer8 (values : List Int8)
deriving DecidableEq

/-- The number of coordinates. -/
def VectorValues.len : VectorValues → ℕ
  | .float64 values => values.length
  | .float32 values => values.length
  | .integer64 values => values.length
  | .integer32 values => values.length
  | .integer16 values => values.length
  | .integer8 values => values.length

/-- A vector. Both fields are public in the source: nothing ties `dimension` to the
number of coordinates. -/
structure LoraVector where
  dimension : UInt64
  values : VectorValues
deriving DecidableEq

/-- A binary value, kept in the segments its producer made. -/
structure LoraBinary where
  segments : List (List UInt8)
deriving DecidableEq

/-- A property value. -/
inductive PropertyValue where
  | null
  | bool (value : Bool)
  | int (value : Int64)
  | float (value : F64)
  | string (value : String)
  | binary (value : LoraBinary)
  | list (values : List PropertyValue)
  | map (entries : List (String × PropertyValue))
  | date (value : LoraDate)
  | time (value : LoraTime)
  | localTime (value : LoraLocalTime)
  | dateTime (value : LoraDateTime)
  | localDateTime (value : LoraLocalDateTime)
  | duration (value : LoraDuration)
  | point (value : LoraPoint)
  | vector (value : LoraVector)

namespace PropertyValue

mutual

/-- Equality of values, constructor by constructor. -/
def same : PropertyValue → PropertyValue → Bool
  | .null, .null => true
  | .bool a, .bool b => a == b
  | .int a, .int b => a == b
  | .float a, .float b => a == b
  | .string a, .string b => a == b
  | .binary a, .binary b => a == b
  | .list as, .list bs => sameList as bs
  | .map as, .map bs => sameEntries as bs
  | .date a, .date b => a == b
  | .time a, .time b => a == b
  | .localTime a, .localTime b => a == b
  | .dateTime a, .dateTime b => a == b
  | .localDateTime a, .localDateTime b => a == b
  | .duration a, .duration b => a == b
  | .point a, .point b => a == b
  | .vector a, .vector b => a == b
  | _, _ => false
termination_by structural a => a

def sameList : List PropertyValue → List PropertyValue → Bool
  | [], [] => true
  | a :: as, b :: bs => same a b && sameList as bs
  | _, _ => false
termination_by structural as => as

def sameEntries : List (String × PropertyValue) → List (String × PropertyValue) → Bool
  | [], [] => true
  | (k, a) :: as, (k', b) :: bs => k == k' && same a b && sameEntries as bs
  | _, _ => false
termination_by structural as => as

end

mutual

theorem same_iff : ∀ a b : PropertyValue, same a b = true ↔ a = b
  | .list as, b => by cases b <;> simp [same, sameList_iff as]
  | .map as, b => by cases b <;> simp [same, sameEntries_iff as]
  | .null, b | .bool _, b | .int _, b | .float _, b | .string _, b | .binary _, b
  | .date _, b | .time _, b | .localTime _, b | .dateTime _, b | .localDateTime _, b
  | .duration _, b | .point _, b | .vector _, b => by cases b <;> simp [same]

theorem sameList_iff : ∀ as bs : List PropertyValue, sameList as bs = true ↔ as = bs
  | [], bs => by cases bs <;> simp [sameList]
  | a :: as, bs => by
    cases bs with
    | nil => simp [sameList]
    | cons b bs => simp [sameList, same_iff a b, sameList_iff as bs]

theorem sameEntries_iff :
    ∀ as bs : List (String × PropertyValue), sameEntries as bs = true ↔ as = bs
  | [], bs => by cases bs <;> simp [sameEntries]
  | (k, a) :: as, bs => by
    cases bs with
    | nil => simp [sameEntries]
    | cons b bs =>
      obtain ⟨k', b⟩ := b
      simp [sameEntries, same_iff a b, sameEntries_iff as bs]

end

/-- Induction on a value: a list or a map comes with the hypothesis for every value
inside it. -/
@[elab_as_elim, induction_eliminator]
theorem induction {P : PropertyValue → Prop}
    (null : P .null) (bool : ∀ value, P (.bool value)) (int : ∀ value, P (.int value))
    (float : ∀ value, P (.float value)) (string : ∀ value, P (.string value))
    (binary : ∀ value, P (.binary value))
    (list : ∀ values, (∀ v ∈ values, P v) → P (.list values))
    (map : ∀ entries, (∀ e ∈ entries, P e.2) → P (.map entries))
    (date : ∀ value, P (.date value)) (time : ∀ value, P (.time value))
    (localTime : ∀ value, P (.localTime value)) (dateTime : ∀ value, P (.dateTime value))
    (localDateTime : ∀ value, P (.localDateTime value))
    (duration : ∀ value, P (.duration value)) (point : ∀ value, P (.point value))
    (vector : ∀ value, P (.vector value)) (v : PropertyValue) : P v :=
  @PropertyValue.rec P (fun values => ∀ v ∈ values, P v) (fun entries => ∀ e ∈ entries, P e.2)
    (fun e => P e.2)
    null bool int float string binary list map date time localTime dateTime localDateTime
    duration point vector
    (by simp) (fun _ _ hv hvs => List.forall_mem_cons.mpr ⟨hv, hvs⟩)
    (by simp) (fun _ _ he hes => List.forall_mem_cons.mpr ⟨he, hes⟩)
    (fun _ _ hv => hv) v

instance : DecidableEq PropertyValue := fun a b =>
  decidable_of_iff (same a b = true) (same_iff a b)

mutual

/-- `p` holds of the value and of every value nested in it. -/
def everywhere (p : PropertyValue → Bool) : PropertyValue → Bool
  | .list values => p (.list values) && everywhereList p values
  | .map entries => p (.map entries) && everywhereEntries p entries
  | v => p v
termination_by structural v => v

def everywhereList (p : PropertyValue → Bool) : List PropertyValue → Bool
  | [] => true
  | v :: vs => everywhere p v && everywhereList p vs
termination_by structural vs => vs

def everywhereEntries (p : PropertyValue → Bool) : List (String × PropertyValue) → Bool
  | [] => true
  | (_, v) :: es => everywhere p v && everywhereEntries p es
termination_by structural es => es

end

/-- The keys of every map, at every depth, ascend strictly: what the type of an ordered
map guarantees. -/
def keyed : PropertyValue → Bool :=
  everywhere fun
    | .map entries => decide (SortedMap.Sorted entries)
    | _ => true

/-- Every vector, at every depth, declares as many dimensions as it has coordinates. -/
def dimensioned : PropertyValue → Bool :=
  everywhere fun
    | .vector v => v.dimension.toNat == v.values.len
    | _ => true

theorem everywhereList_iff {p : PropertyValue → Bool} {values : List PropertyValue} :
    everywhereList p values = true ↔ ∀ v ∈ values, everywhere p v = true := by
  induction values with
  | nil => simp [everywhereList]
  | cons v vs ih => simp [everywhereList, ih]

theorem everywhereEntries_iff {p : PropertyValue → Bool} {entries : List (String × PropertyValue)} :
    everywhereEntries p entries = true ↔ ∀ e ∈ entries, everywhere p e.2 = true := by
  induction entries with
  | nil => simp [everywhereEntries]
  | cons e es ih => simp [everywhereEntries, ih]

theorem everywhere_list (p : PropertyValue → Bool) (values : List PropertyValue) :
    everywhere p (.list values) = (p (.list values) && everywhereList p values) := rfl

theorem everywhere_map (p : PropertyValue → Bool) (entries : List (String × PropertyValue)) :
    everywhere p (.map entries) = (p (.map entries) && everywhereEntries p entries) := rfl

theorem keyed_list {values : List PropertyValue} :
    keyed (.list values) = true ↔ ∀ v ∈ values, keyed v = true := by
  simp [keyed, everywhere_list, everywhereList_iff]

theorem keyed_map {entries : List (String × PropertyValue)} : keyed (.map entries) = true ↔
      SortedMap.Sorted entries ∧ ∀ e ∈ entries, keyed e.2 = true := by
  simp [keyed, everywhere_map, everywhereEntries_iff]

theorem dimensioned_list {values : List PropertyValue} :
    dimensioned (.list values) = true ↔ ∀ v ∈ values, dimensioned v = true := by
  simp [dimensioned, everywhere_list, everywhereList_iff]

theorem dimensioned_map {entries : List (String × PropertyValue)} :
    dimensioned (.map entries) = true ↔ ∀ e ∈ entries, dimensioned e.2 = true := by
  simp [dimensioned, everywhere_map, everywhereEntries_iff]

theorem dimensioned_vector {v : LoraVector} :
    dimensioned (.vector v) = true ↔ v.dimension.toNat = v.values.len := by
  simp [dimensioned, everywhere]

end PropertyValue

/-- A **property bag**: entries sorted by key. -/
structure PropertyMap where
  entries : List (String × PropertyValue)
  sorted : SortedMap.Sorted entries
deriving DecidableEq

namespace PropertyMap

/-- The empty bag. -/
def empty : PropertyMap := ⟨[], SortedMap.sorted_nil⟩

/-- The value at `key`. -/
def get (m : PropertyMap) (key : String) : Option PropertyValue :=
  SortedMap.get? key m.entries

/-- Insert or replace the value at `key`. -/
def insert (m : PropertyMap) (key : String) (value : PropertyValue) : PropertyMap :=
  ⟨SortedMap.put key value m.entries, m.sorted.put key value⟩

/-- Drop the value at `key`. -/
def remove (m : PropertyMap) (key : String) : PropertyMap :=
  ⟨SortedMap.erase key m.entries, m.sorted.erase key⟩

/-- Insert entries in order, later ones winning. -/
def ofEntries (entries : List (String × PropertyValue)) : PropertyMap :=
  ⟨SortedMap.putAll [] entries, SortedMap.sorted_nil.putAll entries⟩

@[ext] theorem ext {m m' : PropertyMap} (h : m.entries = m'.entries) : m = m' := by
  cases m
  cases m'
  simpa using h

/-- A bag is rebuilt from its own entries. -/
theorem ofEntries_entries (m : PropertyMap) : ofEntries m.entries = m :=
  ext m.sorted.putAll_nil

end PropertyMap

end LoraDb
