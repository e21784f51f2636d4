import LoraDb.OrdMapSound

/-!
# Writes to an Ordered Map

A write to the tables is that write to the sorted entries they hold.

## Main results

* `CowOrdMap.get_ok`, `CowOrdMap.getMut_ok`, `CowOrdMap.remove_ok`: one operation.
* `CowOrdMap.fromSorted_ok`: a map of ascending entries.
-/

open Option (bind_eq_bind bind_some map_some)
open List SortedRuns

namespace LoraDb

namespace OrdMap

variable {K V : Type} [LinearOrder K] {key : K}

/-! ### Partitions -/

namespace SortedPart

/-- A search in a partition finds the key, or not. -/
theorem position_spec {part : SortedPart K V} (h : SortedMap.Sorted part) (key : K) :
    (∃ as old bs, part = as ++ (key, old) :: bs ∧ position part key = .ok as.length ∧
        ∀ e ∈ as, e.1 < key) ∨
      ∃ as bs, part = as ++ bs ∧ position part key = .error as.length ∧ (∀ e ∈ as, e.1 < key) ∧
        ∀ e ∈ bs, key < e.1 := by
  have hfinds := search_finds key (show Ascends Prod.fst part from h)
  rw [position]
  generalize search Prod.fst key part = out at hfinds ⊢
  cases hfinds with
  | @here as bs e hl he has hbs =>
    obtain ⟨k, old⟩ := e
    obtain rfl : k = key := he
    exact .inl ⟨as, old, bs, hl, rfl, has⟩
  | @absent as bs hl has hbs => exact .inr ⟨as, bs, hl, rfl, has, hbs⟩

end SortedPart

namespace Place

variable {root : Root K V} (p : Place root key)

/-- A key that is in the partition of its place. -/
theorem found {as bs : SortedPart K V} {old : V} (hpart : p.part = as ++ (key, old) :: bs)
    (has : ∀ e ∈ as, e.1 < key) :
    SortedMap.get? key (entriesOf root) = some old ∧ (∀ v, SortedMap.put key v (entriesOf root) =
        p.before ++ ((as ++ (key, v) :: bs) ++ p.behind)) ∧
      SortedMap.erase key (entriesOf root) = p.before ++ ((as ++ bs) ++ p.behind) := by
  have hentries : entriesOf root = (p.before ++ as) ++ ((key, old) :: (bs ++ p.behind)) := by
    rw [p.entries, hpart]
    simp only [append_assoc, cons_append]
  have hbelow : ∀ e ∈ p.before ++ as, e.1 < key := fun e he =>
    (mem_append.mp he).elim (p.below e) (has e)
  obtain ⟨hget, hput, herase⟩ := @SortedMap.found _ _ _ _ _ (bs ++ p.behind) old hbelow
  rw [hentries]
  refine ⟨hget, fun v => (hput v).trans ?_, herase.trans ?_⟩ <;>
    simp only [append_assoc, cons_append]

theorem absent {as bs : SortedPart K V} (hpart : p.part = as ++ bs) (has : ∀ e ∈ as, e.1 < key)
    (hbs : ∀ e ∈ bs, key < e.1) : SortedMap.get? key (entriesOf root) = none := by
  have hentries : entriesOf root = (p.before ++ as) ++ (bs ++ p.behind) := by
    rw [p.entries, hpart]
    simp only [append_assoc]
  have hbelow : ∀ e ∈ p.before ++ as, e.1 < key := fun e he =>
    (mem_append.mp he).elim (p.below e) (has e)
  have habove : ∀ e ∈ bs ++ p.behind, key < e.1 := fun e he =>
    (mem_append.mp he).elim (hbs e) (p.above e)
  rw [hentries]
  exact (SortedMap.absent hbelow habove).1

end Place

namespace CowOrdMap

variable {m : CowOrdMap K V}

theorem locate_place (p : Place m.groups key) : m.locate key = some (p.gs.length, p.ps.length) := by
  have hroot := p.get_root
  rw [p.group_slot] at hroot
  rw [locate]
  simp only [p.group_slot, hroot, bind_eq_bind, bind_some, p.part_slot]

theorem partAt_place (p : Place m.groups key) :
    m.partAt (p.gs.length, p.ps.length) = some (p.partMin, p.part) := by
  have hroot := p.get_root
  have hgroup := p.get_group
  rw [p.group_slot] at hroot
  rw [p.part_slot] at hgroup
  rw [partAt]
  simp only [hroot, bind_eq_bind, bind_some, hgroup]

theorem get_ok (h : RootOk m.groups) (key : K) :
    m.get key = some (SortedMap.get? key (entriesOf m.groups)) := by
  rw [get]
  rcases eq_or_ne m.groups [] with hnil | hne
  · rw [hnil]
    rfl
  obtain ⟨p⟩ := h.place hne key
  have hfalse : m.groups.isEmpty = false := isEmpty_eq_false_iff.mpr hne
  simp only [hfalse, Bool.false_eq_true, if_false, locate_place p, partAt_place p,
    bind_eq_bind, bind_some]
  rw [SortedPart.get]
  rcases SortedPart.position_spec (p.part_sorted h) key with
    ⟨as, old, bs, hpart, hpos, has⟩ | ⟨as, bs, hpart, hpos, has, hbs⟩
  · rw [hpos, (p.found hpart has).1]
    simp only [hpart, getElem?_mid, map_some]
  · rw [hpos, p.absent hpart has hbs]

/-- A map that has a key. -/
theorem exists_place (h : RootOk m.groups) {old : V}
    (hget : SortedMap.get? key (entriesOf m.groups) = some old) :
    ∃ (p : Place m.groups key) (as bs : SortedPart K V), p.part = as ++ (key, old) :: bs ∧
      SortedPart.position p.part key = .ok as.length ∧ ∀ e ∈ as, e.1 < key := by
  have hne : m.groups ≠ [] := by
    intro hnil
    rw [hnil] at hget
    cases hget
  obtain ⟨p⟩ := h.place hne key
  rcases SortedPart.position_spec (p.part_sorted h) key with
    ⟨as, old', bs, hpart, hpos, has⟩ | ⟨as, bs, hpart, hpos, has, hbs⟩
  · rw [(p.found hpart has).1] at hget
    obtain rfl := Option.some.inj hget
    exact ⟨p, as, bs, hpart, hpos, has⟩
  · rw [p.absent hpart has hbs] at hget
    cases hget

/-- Writing through a reference changes the value there and nothing else. -/
theorem getMut_ok (h : RootOk m.groups) (key : K) (f : V → V) :
    ∃ root, m.getMut key f = some (⟨root, m.len⟩, SortedMap.get? key (entriesOf m.groups)) ∧
      RootOk root ∧ entriesOf root = (SortedMap.get? key (entriesOf m.groups)).elim
        (entriesOf m.groups) fun v => SortedMap.put key (f v) (entriesOf m.groups) := by
  rw [getMut, get_ok h]
  cases hget : SortedMap.get? key (entriesOf m.groups) with
  | none => exact ⟨m.groups, rfl, h, rfl⟩
  | some old =>
    obtain ⟨p, as, bs, hpart, hpos, has⟩ := exists_place h hget
    have hput := (p.found hpart has).2.1 (f old)
    obtain ⟨hps, hleast, hps'⟩ := p.parts_true h
    have hgroup := p.group_smallest h
    have hroot := p.get_root
    have hslot := p.get_group
    rw [p.group_slot] at hroot
    rw [p.part_slot] at hslot
    have hset := p.set_root
    rw [p.group_slot] at hset
    have hchange : SortedPart.change p.part key f = some (as ++ (key, f old) :: bs, some old) := by
      rw [SortedPart.change, hpos]
      simp only [hpart, getElem?_mid, map_some, set_mid]
    simp only [bind_eq_bind, bind_some, locate_place p, hroot, hslot, hchange,
      set_mid, hset]
    rw [hpart] at hleast hgroup
    rw [append_assoc, cons_append, ← append_assoc] at hgroup
    have hgroup' := Smallest.replace hgroup (show Prod.fst (key, f old) = _ from rfl)
    rw [append_assoc] at hgroup'
    have hsorted := hput ▸ h.sorted.put key (f old)
    have hleast' : Smallest Prod.fst p.partMin (as ++ (key, f old) :: bs) :=
      Smallest.replace hleast rfl
    have hparts : PartsTrue (p.ps ++ (p.partMin, as ++ (key, f old) :: bs) :: p.ps') :=
      hps.append (.cons hleast' hps')
    have hok := p.put_group h hparts (by simp) (by rwa [append_assoc, cons_append]) hsorted
    exact ⟨_, rfl, hok.1, hok.2.trans hput.symm⟩

/-- Removal is that of a sorted map. -/
theorem remove_ok (h : RootOk m.groups) (PART : ℕ) (key : K) :
    ∃ m', m.remove PART key = some (m', SortedMap.get? key (entriesOf m.groups)) ∧
      RootOk m'.groups ∧ entriesOf m'.groups = SortedMap.erase key (entriesOf m.groups) ∧
      m'.len = if (SortedMap.get? key (entriesOf m.groups)).isSome then m.len - 1 else m.len := by
  rw [remove, get_ok h]
  cases hget : SortedMap.get? key (entriesOf m.groups) with
  | none =>
    refine ⟨m, rfl, h, ?_, rfl⟩
    refine SortedMap.Sorted.ext h.sorted (h.sorted.erase key) fun k => ?_
    rw [h.sorted.get?_erase]
    split_ifs with heq
    · rw [heq, hget]
    · rfl
  | some old =>
    obtain ⟨p, as, bs, hpart, hpos, has⟩ := exists_place h hget
    have herase := (p.found hpart has).2.2
    have hsorted := herase ▸ h.sorted.erase key
    obtain ⟨hps, hleast, hps'⟩ := p.parts_true h
    have hgroup := p.group_smallest h
    have hroot := p.get_root
    have hslot := p.get_group
    rw [p.group_slot] at hroot
    rw [p.part_slot] at hslot
    have hremove : SortedPart.remove p.part key = some (as ++ bs, some old) := by
      rw [SortedPart.remove, hpos]
      simp only [hpart, getElem?_mid, map_some, eraseIdx_mid]
    have hin : (key, old) ∈ p.part := by rw [hpart]; simp
    have hrest : SortedMap.Sorted (flat p.ps ++ ((as ++ bs) ++ flat p.ps')) := by
      have hassoc : p.before ++ ((as ++ bs) ++ p.behind) =
          entriesOf p.gs ++ ((flat p.ps ++ ((as ++ bs) ++ flat p.ps')) ++ entriesOf p.gs') := by
        simp only [Place.before, Place.behind, append_assoc]
      rw [hassoc] at hsorted
      exact (pairwise_append.mp (pairwise_append.mp hsorted).2.1).1
    -- The partition, in its group.
    have haround : Around (fun es => es) (fun _ : K × V => True) key p.ps p.partMin (as ++ bs)
        p.ps' := by
      refine ⟨fun s hs => (hps.append hps') s hs, fun _ _ => trivial, hleast.2 _ hin, ?_, ?_, hrest⟩
      · exact fun s hs e he => p.below e (mem_append_right _ (mem_flatMap.mpr ⟨s, hs, he⟩))
      · exact fun s hs e he => p.above e (mem_append_left _ (mem_flatMap.mpr ⟨s, hs, he⟩))
    obtain ⟨group, hafter, hflat, hparts⟩ := afterRemove_ok
      (f := fun es : List (K × V) => es) (fun _ _ => rfl)
      (fun x xs _ hsorted => smallest_head hsorted) haround p.part (PART / 4) (PART * 3 / 4)
    have hin' : (key, old) ∈ flat p.ps ++ (p.part ++ flat p.ps') :=
      mem_append_right _ (mem_append_left _ hin)
    -- The group, in the root.
    have htrue := p.groups_true h
    have hholds : flat (p.gs.flatMap Prod.snd ++ (group ++ p.gs'.flatMap Prod.snd)) =
        p.before ++ ((as ++ bs) ++ p.behind) := by
      rw [flat_append, flat_append, flat_flatMap, flat_flatMap, flat, hflat]
      simp only [Place.before, Place.behind, flat, append_assoc]
    have haround' : Around flat (fun s : K × SortedPart K V => Smallest Prod.fst s.1 s.2) key p.gs
        p.groupMin group p.gs' := by
      refine ⟨fun s hs => (htrue s hs).1, fun x hx => ?_, hgroup.2 _ hin', ?_, ?_, hholds ▸ hsorted⟩
      · simp only [mem_append, mem_flatMap] at hx
        rcases hx with ⟨s, hs, hx⟩ | hx | ⟨s, hs, hx⟩
        · exact (htrue s (mem_append_left _ hs)).2 x hx
        · exact hparts x hx
        · exact (htrue s (mem_append_right _ hs)).2 x hx
      · exact fun s hs e he => p.below e (mem_append_left _ (mem_flatMap.mpr ⟨s, hs, he⟩))
      · exact fun s hs e he => p.above e (mem_append_right _ (mem_flatMap.mpr ⟨s, hs, he⟩))
    obtain ⟨root, hafter', hflat', hgroups⟩ := afterRemove_ok flat_append
      (fun x xs hgood hsorted => smallest_cons hsorted (hgood x mem_cons_self)) haround'
      (p.ps ++ (p.partMin, p.part) :: p.ps') GROUP_MIN (GROUP_MAX * 3 / 4)
    have hentries : entriesOf root = p.before ++ ((as ++ bs) ++ p.behind) := by
      rw [← flat_flatMap, hflat', hholds]
    rw [← p.root_eq] at hafter'
    simp only [bind_eq_bind, bind_some, locate_place p, hroot, hslot, hremove,
      hafter, hafter']
    refine ⟨_, rfl, ⟨hgroups, fun s hs x hx => ?_, hentries ▸ hsorted⟩, hentries.trans herase.symm,
      rfl⟩
    refine haround'.good x ?_
    rw [← hflat']
    exact mem_flatMap.mpr ⟨s, hs, hx⟩

/-! ### Ascending entries -/

namespace Building

/-- What is built so far holds the entries so far. -/
structure Ok (b : Building K V) (es : List (K × V)) : Prop where
  entries : entriesOf b.groups ++ (flat b.group ++ b.part) = es
  groups : ∀ slot ∈ b.groups, Smallest Prod.fst slot.1 (flat slot.2) ∧ PartsTrue slot.2
  parts : PartsTrue b.group
  sorted : SortedMap.Sorted es
  len : b.len = es.length

variable {b : Building K V} {es : List (K × V)}

theorem Ok.closePart (h : b.Ok es) (hne : b.part ≠ []) :
    ∃ b', b.closePart = some b' ∧ b'.Ok es ∧ b'.part = [] ∧ b'.group ≠ [] := by
  obtain ⟨groups, group, part, len⟩ := b
  obtain ⟨e, part, rfl⟩ := exists_cons_of_ne_nil hne
  have hsorted := h.sorted
  rw [← h.entries] at hsorted
  have hpart := (pairwise_append.mp (pairwise_append.mp hsorted).2.1).2.1
  refine ⟨_, rfl, ⟨?_, h.groups, h.parts.append (.cons (smallest_head hpart) ?_), h.sorted, h.len⟩,
    rfl, by simp⟩
  · simpa using h.entries
  · exact fun s hs => absurd hs not_mem_nil

theorem Ok.closeGroup (h : b.Ok es) (hpart : b.part = []) (hne : b.group ≠ []) :
    ∃ b', b.closeGroup = some b' ∧ b'.Ok es ∧ b'.part = [] ∧ b'.group = [] := by
  obtain ⟨groups, group, part, len⟩ := b
  obtain rfl : part = [] := hpart
  obtain ⟨s, group, rfl⟩ := exists_cons_of_ne_nil hne
  have hsorted := h.sorted
  rw [← h.entries, append_nil] at hsorted
  have hgroup := (pairwise_append.mp hsorted).2.1
  refine ⟨_, rfl, ⟨?_, fun slot hslot => ?_, fun s hs => absurd hs not_mem_nil, h.sorted, h.len⟩,
    rfl,
    rfl⟩
  · simpa using h.entries
  · rcases mem_append.mp hslot with hslot | hslot
    · exact h.groups slot hslot
    · rw [mem_singleton.mp hslot]
      exact ⟨smallest_cons hgroup (h.parts s mem_cons_self), h.parts⟩

theorem Ok.makeRoom (h : b.Ok es) {PART : ℕ} (hPART : 0 < PART) :
    ∃ b', b.makeRoom PART = some b' ∧ b'.Ok es := by
  rw [Building.makeRoom]
  split_ifs with hfull
  · obtain ⟨b', hb', hok, hpart, hgroup⟩ := h.closePart (ne_nil_of_length_pos (hfull ▸ hPART))
    rw [hb']
    simp only [bind_eq_bind, bind_some]
    split_ifs
    · obtain ⟨b'', hb'', hok', -, -⟩ := hok.closeGroup hpart hgroup
      exact ⟨b'', hb'', hok'⟩
    · exact ⟨b', rfl, hok⟩
  · exact ⟨b, rfl, h⟩

theorem Ok.pushAll {PART : ℕ} (hPART : 0 < PART) {new : List (K × V)} (h : b.Ok es)
    (hsorted : SortedMap.Sorted (es ++ new)) :
    ∃ b', Building.pushAll PART new b = some b' ∧ b'.Ok (es ++ new) := by
  induction new generalizing b es with
  | nil => exact ⟨b, rfl, by rwa [append_nil]⟩
  | cons e new ih =>
    obtain ⟨b', hb', hok⟩ := h.makeRoom hPART
    have hcons : es ++ e :: new = (es ++ [e]) ++ new := by rw [append_assoc, singleton_append]
    have hprefix : SortedMap.Sorted (es ++ [e]) :=
      (pairwise_append.mp (hcons ▸ hsorted : SortedMap.Sorted ((es ++ [e]) ++ new))).1
    have hok' : Ok { b' with part := b'.part ++ [e], len := b'.len + 1 } (es ++ [e]) := by
      refine ⟨?_, hok.groups, hok.parts, hprefix, ?_⟩
      · rw [← hok.entries]
        simp
      · rw [hok.len, length_append, length_singleton]
    obtain ⟨b'', hb'', hok''⟩ := ih hok' (hcons ▸ hsorted)
    refine ⟨b'', ?_, hcons ▸ hok''⟩
    rw [Building.pushAll, push, hb']
    exact hb''

end Building

/-- A map of ascending entries holds them. -/
theorem fromSorted_ok {PART : ℕ} (hPART : 0 < PART) {es : List (K × V)}
    (h : SortedMap.Sorted es) : ∃ m : CowOrdMap K V, fromSorted PART es = some m ∧
      RootOk m.groups ∧ entriesOf m.groups = es ∧ m.len = es.length := by
  have hstart : Building.Ok (⟨[], [], [], 0⟩ : Building K V) [] :=
    ⟨rfl, fun _ hs => absurd hs not_mem_nil, fun _ hs => absurd hs not_mem_nil, .nil, rfl⟩
  obtain ⟨b, hb, hok⟩ := hstart.pushAll hPART (show SortedMap.Sorted ([] ++ es) from h)
  rw [nil_append] at hok
  obtain ⟨b', hb', hok', hpart⟩ : ∃ b', (if b.part.isEmpty then some b else b.closePart) = some b' ∧
      b'.Ok es ∧ b'.part = [] := by
    split_ifs with hempty
    · exact ⟨b, rfl, hok, isEmpty_iff.mp hempty⟩
    · obtain ⟨b', hb', hok', hpart, -⟩ := hok.closePart fun hnil => hempty (isEmpty_iff.mpr hnil)
      exact ⟨b', hb', hok', hpart⟩
  obtain ⟨b'', hb'', hok'', hpart', hgroup⟩ : ∃ b'', (if b'.group.isEmpty then some b'
      else b'.closeGroup) = some b'' ∧ b''.Ok es ∧ b''.part = [] ∧ b''.group = [] := by
    split_ifs with hempty
    · exact ⟨b', rfl, hok', hpart, isEmpty_iff.mp hempty⟩
    · exact hok'.closeGroup hpart fun hnil => hempty (isEmpty_iff.mpr hnil)
  have hentries : entriesOf b''.groups = es := by
    have hall := hok''.entries
    rwa [hgroup, hpart', flat_nil, append_nil, append_nil] at hall
  refine ⟨⟨b''.groups, b''.len⟩, ?_, ⟨fun s hs => (hok''.groups s hs).1,
    fun s hs => (hok''.groups s hs).2, hentries.symm ▸ h⟩, hentries, hok''.len⟩
  rw [fromSorted, hb]
  simp only [bind_eq_bind, bind_some, hb', hb'']

end CowOrdMap

end OrdMap

end LoraDb
