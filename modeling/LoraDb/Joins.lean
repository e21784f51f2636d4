import Mathlib.Data.Multiset.Bind

/-!
# Natural Joins

Tuples bind some attributes to values. A table is a multiset of lists of bindings, and joining
a tuple with it extends the tuple by every entry that agrees with what the tuple already
binds. Joins commute, a join that only tests what is bound already can be left out, and a
selection that reads nothing a join adds can be done before or after it.

## Main results

* `joins_perm`: the order of joins does not matter.
* `join_column_of_bound`: a column that holds the bound value once tests nothing.
* `ite_filter`: a test that is settled can be made before a selection or with it.
-/

open Classical

namespace Joins

open Option

variable {κ α : Type} [DecidableEq κ] {x y : κ} {a b : α}

/-- A tuple: the value of each attribute it binds. -/
abbrev Tuple (κ α : Type) := κ → Option α

/-- Bind an attribute, or test it if it is bound. -/
noncomputable def put (x : κ) (a : α) (t : Tuple κ α) : Option (Tuple κ α) :=
  if t x = none then some (Function.update t x (some a)) else if t x = some a then some t else none

/-- Bind or test one attribute after the other. -/
noncomputable def putAll : List (κ × α) → Tuple κ α → Option (Tuple κ α)
  | [], t => some t
  | (x, a) :: entry, t => (put x a t).bind (putAll entry)

variable {t t' u : Tuple κ α} {entry entry' : List (κ × α)}

theorem put_of_none (h : t x = none) : put x a t = some (Function.update t x (some a)) := by
  simp [put, h]

theorem put_of_some (h : t x = some b) : put x a t = if b = a then some t else none := by
  simp [put, h]

/-- What binding an attribute comes to. -/
theorem put_eq_some : put x a t = some u ↔
    (t x = none ∧ u = Function.update t x (some a)) ∨ t x = some a ∧ u = t := by
  cases h : t x with
  | none =>
    rw [put_of_none h]
    simp [eq_comm]
  | some b =>
    rw [put_of_some h]
    by_cases hb : b = a
    · simp [hb, eq_comm]
    · simp [hb]

theorem put_self (h : put x a t = some u) : u x = some a := by
  rcases put_eq_some.mp h with ⟨-, rfl⟩ | ⟨hx, rfl⟩
  · simp
  · exact hx

/-- Binding an attribute keeps what is bound, and every other attribute. -/
theorem put_keeps (h : put x a t = some u) (hy : t y ≠ none ∨ y ≠ x) : u y = t y := by
  rcases put_eq_some.mp h with ⟨hx, rfl⟩ | ⟨-, rfl⟩
  · by_cases hyx : y = x
    · subst hyx
      rcases hy with hy | hy
      · exact absurd hx hy
      · exact absurd rfl hy
    · simp [hyx]
  · rfl

theorem put_comm (t : Tuple κ α) : (put x a t).bind (put y b) = (put y b t).bind (put x a) := by
  by_cases hxy : x = y
  · subst hxy
    cases h : t x with
    | none =>
      rw [put_of_none h, put_of_none h, bind_some, bind_some,
        put_of_some (Function.update_self x (some a) t),
        put_of_some (Function.update_self x (some b) t)]
      by_cases hab : a = b
      · simp [hab]
      · simp [hab, Ne.symm hab]
    | some c =>
      rw [put_of_some h, put_of_some h]
      by_cases hca : c = a
      · by_cases hcb : c = b
        · rw [if_pos hca, if_pos hcb, bind_some, bind_some, put_of_some h,
            put_of_some h, if_pos hca, if_pos hcb]
        · rw [if_pos hca, if_neg hcb, bind_some, put_of_some h, if_neg hcb]
          rfl
      · by_cases hcb : c = b
        · rw [if_neg hca, if_pos hcb, bind_some, put_of_some h, if_neg hca]
          rfl
        · rw [if_neg hca, if_neg hcb]
          rfl
  · have hother : ∀ {c : α} {z w : κ}, z ≠ w → (Function.update t w (some c)) z = t z :=
      fun h => Function.update_of_ne h _ _
    cases hx : t x with
    | none =>
      rw [put_of_none hx, bind_some]
      cases hy : t y with
      | none =>
        rw [put_of_none hy, bind_some, put_of_none ((hother (Ne.symm hxy)).trans hy),
          put_of_none ((hother hxy).trans hx), Function.update_comm hxy]
      | some d =>
        rw [put_of_some hy, put_of_some ((hother (Ne.symm hxy)).trans hy)]
        by_cases hd : d = b
        · rw [if_pos hd, if_pos hd, bind_some, put_of_none hx]
        · rw [if_neg hd, if_neg hd]
          rfl
    | some c =>
      rw [put_of_some hx]
      cases hy : t y with
      | none =>
        rw [put_of_none hy, bind_some, put_of_some ((hother hxy).trans hx)]
        by_cases hc : c = a
        · rw [if_pos hc, if_pos hc, bind_some, put_of_none hy]
        · rw [if_neg hc, if_neg hc]
          rfl
      | some d =>
        rw [put_of_some hy]
        by_cases hc : c = a
        · by_cases hd : d = b
          · rw [if_pos hc, if_pos hd, bind_some, bind_some, put_of_some hx,
              put_of_some hy, if_pos hc, if_pos hd]
          · rw [if_pos hc, if_neg hd, bind_some, put_of_some hy, if_neg hd]
            rfl
        · by_cases hd : d = b
          · rw [if_neg hc, if_pos hd, bind_some, put_of_some hx, if_neg hc]
            rfl
          · rw [if_neg hc, if_neg hd]
            rfl

theorem putAll_append (t : Tuple κ α) :
    putAll (entry ++ entry') t = (putAll entry t).bind (putAll entry') := by
  induction entry generalizing t with
  | nil => rfl
  | cons e entry ih =>
    change (put e.1 e.2 t).bind (putAll (entry ++ entry')) =
      ((put e.1 e.2 t).bind (putAll entry)).bind (putAll entry')
    rw [bind_assoc]
    exact congrArg _ (funext fun u => ih u)

/-- The order of bindings does not matter. -/
theorem putAll_perm (h : entry.Perm entry') (t : Tuple κ α) : putAll entry t = putAll entry' t := by
  induction h generalizing t with
  | nil => rfl
  | cons e h ih => exact congrArg _ (funext fun u => ih u)
  | swap e e' rest =>
    change (put e'.1 e'.2 t).bind (fun u => (put e.1 e.2 u).bind (putAll rest)) =
      (put e.1 e.2 t).bind fun u => (put e'.1 e'.2 u).bind (putAll rest)
    rw [← bind_assoc, ← bind_assoc, put_comm]
  | trans h h' ih ih' => exact (ih t).trans (ih' t)

theorem putAll_comm (t : Tuple κ α) :
    (putAll entry t).bind (putAll entry') = (putAll entry' t).bind (putAll entry) := by
  rw [← putAll_append, ← putAll_append]
  exact putAll_perm List.perm_append_comm t

/-- Binding keeps what is bound, and every attribute that is not named. -/
theorem putAll_keeps (h : putAll entry t = some u) (hy : t y ≠ none ∨ ∀ e ∈ entry, y ≠ e.1) :
    u y = t y := by
  induction entry generalizing t with
  | nil =>
    obtain rfl := Option.some.inj h
    rfl
  | cons e entry ih =>
    obtain ⟨v, hv, h⟩ := Option.bind_eq_some_iff.mp h
    have hvy : v y = t y := put_keeps hv (hy.imp_right fun hy => hy e List.mem_cons_self)
    rw [ih h (by rw [hvy]; exact hy.imp_right fun hy e he => hy e (List.mem_cons_of_mem _ he)), hvy]

/-- What an entry names is bound to what it says. -/
theorem putAll_binds (h : putAll entry t = some u) (he : (x, a) ∈ entry) : u x = some a := by
  induction entry generalizing t with
  | nil => cases he
  | cons e entry ih =>
    obtain ⟨v, hv, hrest⟩ := Option.bind_eq_some_iff.mp h
    rcases List.mem_cons.mp he with rfl | he
    · have hvx : v x = some a := put_self hv
      rw [putAll_keeps hrest (Or.inl (by simp [hvx])), hvx]
    · exact ih hrest he

/-! ### Joins -/

/-- A **table**: the entries it holds. -/
abbrev Table (κ α : Type) := Multiset (List (κ × α))

/-- No tuple, or one. -/
def ofOption {β : Type} (o : Option β) : Multiset β := o.elim 0 ({·})

@[simp] theorem ofOption_some {β : Type} (b : β) : ofOption (some b) = {b} := rfl

@[simp] theorem ofOption_none {β : Type} : ofOption (none : Option β) = 0 := rfl

theorem mem_ofOption {β : Type} {o : Option β} {b : β} : b ∈ ofOption o ↔ o = some b := by
  cases o <;> simp [eq_comm]

theorem ofOption_bind {β γ : Type} (o : Option β) (f : β → Option γ) :
    (ofOption o).bind (fun b => ofOption (f b)) = ofOption (o.bind f) := by
  cases o <;> simp

/-- The extensions of a tuple by a table. -/
noncomputable def join (table : Table κ α) (t : Tuple κ α) : Multiset (Tuple κ α) :=
  table.bind fun entry => ofOption (putAll entry t)

/-- Join with one table after the other. -/
noncomputable def joins : List (Table κ α) → Tuple κ α → Multiset (Tuple κ α)
  | [], t => {t}
  | table :: tables, t => (join table t).bind (joins tables)

variable {table table' : Table κ α} {tables tables' : List (Table κ α)}

theorem mem_join : u ∈ join table t ↔ ∃ entry ∈ table, putAll entry t = some u := by
  simp [join, mem_ofOption]

theorem join_comm (t : Tuple κ α) :
    (join table t).bind (join table') = (join table' t).bind (join table) := by
  have hswap : ∀ T T' : Table κ α, (join T t).bind (join T') =
      T.bind fun e => T'.bind fun e' => ofOption ((putAll e t).bind (putAll e')) := by
    intro T T'
    rw [join, Multiset.bind_assoc]
    refine Multiset.bind_congr fun e _ => ?_
    have hcomm : (ofOption (putAll e t)).bind (join T') =
        T'.bind fun e' => (ofOption (putAll e t)).bind fun u => ofOption (putAll e' u) :=
      Multiset.bind_bind _ _
    rw [hcomm]
    exact Multiset.bind_congr fun e' _ => ofOption_bind _ _
  rw [hswap, hswap, Multiset.bind_bind]
  exact Multiset.bind_congr fun e' _ => Multiset.bind_congr fun e _ => by rw [putAll_comm]

/-- The order of joins does not matter. -/
theorem joins_perm (h : tables.Perm tables') (t : Tuple κ α) :
    joins tables t = joins tables' t := by
  induction h generalizing t with
  | nil => rfl
  | cons table h ih => exact Multiset.bind_congr fun u _ => ih u
  | swap table table' rest =>
    change (join table' t).bind (fun u => (join table u).bind (joins rest)) =
      (join table t).bind fun u => (join table' u).bind (joins rest)
    rw [← Multiset.bind_assoc, ← Multiset.bind_assoc, join_comm]
  | trans h h' ih ih' => exact (ih t).trans (ih' t)

/-- A table of the values one attribute may have. -/
def column (x : κ) (values : Multiset α) : Table κ α := values.map fun a => [(x, a)]

theorem mem_join_column {values : Multiset α} :
    u ∈ join (column x values) t ↔ ∃ a ∈ values, put x a t = some u := by
  rw [mem_join]
  constructor
  · rintro ⟨entry, hentry, hput⟩
    obtain ⟨a, ha, rfl⟩ := Multiset.mem_map.mp hentry
    exact ⟨a, ha, by simpa [putAll] using hput⟩
  · rintro ⟨a, ha, hput⟩
    exact ⟨[(x, a)], Multiset.mem_map_of_mem _ ha, by simpa [putAll] using hput⟩

/-- A column that holds the bound value once tests nothing. -/
theorem join_column_of_bound {values : Multiset α} (hx : t x = some a) (hmem : a ∈ values)
    (hnodup : values.Nodup) : join (column x values) t = {t} := by
  have hput : ∀ b, putAll [(x, b)] t = if b = a then some t else none := by
    intro b
    change (put x b t).bind some = _
    rw [bind_fun_some, put_of_some hx]
    exact if_congr eq_comm rfl rfl
  obtain ⟨rest, rfl⟩ := Multiset.exists_cons_of_mem hmem
  have hrest : a ∉ rest := (Multiset.nodup_cons.mp hnodup).1
  rw [join, column, Multiset.bind_map, Multiset.cons_bind, hput, if_pos rfl]
  have hzero : (rest.bind fun b => ofOption (putAll [(x, b)] t)) = rest.bind fun _ => 0 := by
    refine Multiset.bind_congr fun b hb => ?_
    have hba : b ≠ a := by
      rintro rfl
      exact hrest hb
    rw [hput, if_neg hba, ofOption_none]
  rw [hzero, Multiset.bind_zero, add_zero, ofOption_some]

/-- The attributes a table names, in every entry. -/
def Names (table : Table κ α) (x : κ) : Prop := ∃ entry ∈ table, ∃ e ∈ entry, x = e.1

/-- Joining keeps what is bound, and every attribute that no table names. -/
theorem joins_keeps (hu : u ∈ joins tables t) (hy : t y ≠ none ∨ ∀ T ∈ tables, ¬ Names T y) :
    u y = t y := by
  induction tables generalizing t with
  | nil =>
    obtain rfl := Multiset.mem_singleton.mp hu
    rfl
  | cons T tables ih =>
    obtain ⟨v, hv, hu⟩ := Multiset.mem_bind.mp hu
    obtain ⟨entry, hentry, hput⟩ := mem_join.mp hv
    have hvy : v y = t y := putAll_keeps hput <| hy.imp_right fun hy e he heq =>
      hy T List.mem_cons_self ⟨entry, hentry, e, he, heq⟩
    rw [ih hu (by rw [hvy]; exact hy.imp_right fun hy T hT => hy T (List.mem_cons_of_mem _ hT)),
      hvy]

/-- A test made before a selection, and one made with it. -/
theorem ite_filter {β : Type} {m : Multiset β} {c : Prop} {p q : β → Prop} [Decidable c]
    [DecidablePred p] [DecidablePred q]
    (h : ∀ b ∈ m, (q b ↔ c ∧ p b)) : (if c then m.filter p else 0) = m.filter q := by
  by_cases hc : c
  · rw [if_pos hc]
    exact Multiset.filter_congr fun b hb => by simp [h b hb, hc]
  · rw [if_neg hc]
    exact (Multiset.filter_eq_nil.mpr fun b hb hq => hc ((h b hb).mp hq).1).symm

end Joins
