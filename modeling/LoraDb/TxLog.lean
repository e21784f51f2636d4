import Mathlib.Data.List.Basic

/-!
# Transaction Logs

An append-only log of transactions: each one begins, adds events, and ends with a commit
or an abort, in any order relative to the others. What such a log *means* is the list of the
events of its committed transactions, in commit order (`committed`). Nothing here knows how
a log is stored or scanned.

## Main definitions

* `eventsOf t log`: the events transaction `t` has added.
* `committed log`: what the log means.
* `Open log t`: `t` has begun and not ended.
* `Accepts log e`: the entry `e` may follow `log`.
* `Interleaved log t`: an entry of another transaction lies between the begin and the commit
  of `t`. `Serial` logs have no such transaction.
-/

namespace TxLog

open List

/-- An entry of a log over transaction names `τ` and events `ε`. -/
inductive Entry (τ ε : Type) where
  | begin (t : τ)
  | add (t : τ) (events : List ε)
  | commit (t : τ)
  | abort (t : τ)
  /-- An entry of no transaction. -/
  | mark
deriving DecidableEq

variable {τ ε : Type}

/-- The transaction an entry belongs to. -/
def Entry.tx : Entry τ ε → Option τ
  | .begin t | .add t _ | .commit t | .abort t => some t
  | .mark => none

/-- The entry ends `t`. -/
def Entry.Ends (t : τ) : Entry τ ε → Prop
  | .commit u | .abort u => u = t
  | _ => False

/-- `t` has begun and not ended. -/
def Open (log : List (Entry τ ε)) (t : τ) : Prop :=
  .begin t ∈ log ∧ ∀ e ∈ log, ¬ e.Ends t

/-- The entry may follow `log`: it belongs to an open transaction, or to none, or begins
one. -/
def Accepts (log : List (Entry τ ε)) : Entry τ ε → Prop
  | .begin _ | .mark => True
  | .add t _ | .commit t | .abort t => Open log t

/-- An entry of another transaction has come after the begin of `t`. -/
def Interrupted (log : List (Entry τ ε)) (t : τ) : Prop :=
  ∃ pre e post u, log = pre ++ e :: post ∧ .begin t ∈ pre ∧ e.tx = some u ∧ u ≠ t

/-- An entry of another transaction lies between the begin and the commit of `t`. -/
def Interleaved (log : List (Entry τ ε)) (t : τ) : Prop :=
  ∃ pre e post u, log = pre ++ e :: post ∧ .begin t ∈ pre ∧ e.tx = some u ∧ u ≠ t ∧ .commit t ∈ post

/-- No transaction that commits is interleaved with another. -/
def Serial (log : List (Entry τ ε)) : Prop := ∀ t, ¬ Interleaved log t

section Events

variable [DecidableEq τ]

/-- The events of `t` in one entry. -/
def Entry.eventsOf (t : τ) : Entry τ ε → List ε
  | .add u events => if u = t then events else []
  | _ => []

/-- The events `t` has added to the log. -/
def eventsOf (t : τ) (log : List (Entry τ ε)) : List ε := log.flatMap (Entry.eventsOf t)

/-- What an entry commits after `pre`. -/
def Entry.commits (pre : List (Entry τ ε)) : Entry τ ε → List ε
  | .commit t => TxLog.eventsOf t pre
  | _ => []

/-- The events committed by the entries after `pre`. -/
def committedFrom (pre : List (Entry τ ε)) : List (Entry τ ε) → List ε
  | [] => []
  | e :: rest => e.commits pre ++ committedFrom (pre ++ [e]) rest

/-- What a log means: the events of its committed transactions, in commit order. -/
def committed (log : List (Entry τ ε)) : List ε := committedFrom [] log

@[simp] theorem eventsOf_append (t : τ) (log log' : List (Entry τ ε)) :
    eventsOf t (log ++ log') = eventsOf t log ++ eventsOf t log' :=
  flatMap_append

@[simp] theorem eventsOf_singleton (t : τ) (e : Entry τ ε) : eventsOf t [e] = e.eventsOf t := by
  simp [eventsOf]

theorem committedFrom_append (pre log log' : List (Entry τ ε)) : committedFrom pre (log ++ log') =
      committedFrom pre log ++ committedFrom (pre ++ log) log' := by
  induction log generalizing pre with
  | nil => simp [committedFrom]
  | cons e log ih => simp [committedFrom, ih]

/-- One more entry commits what it commits after all the others. -/
theorem committed_snoc (log : List (Entry τ ε)) (e : Entry τ ε) :
    committed (log ++ [e]) = committed log ++ e.commits log := by
  simp [committed, committedFrom_append, committedFrom]

/-- An entry of another transaction adds nothing to `t`. -/
theorem Entry.eventsOf_of_tx_ne {t : τ} {e : Entry τ ε} (h : e.tx ≠ some t) :
    e.eventsOf t = [] := by
  cases e with
  | add u events =>
    have hne : u ≠ t := fun heq => h (congrArg some heq)
    simp [Entry.eventsOf, hne]
  | begin u | commit u | abort u | mark => rfl

end Events

instance (t : τ) [DecidableEq τ] (e : Entry τ ε) : Decidable (e.Ends t) := by
  cases e <;> unfold Entry.Ends <;> infer_instance

instance (log : List (Entry τ ε)) (t : τ) [DecidableEq τ] [DecidableEq ε] :
    Decidable (Open log t) := by
  unfold Open
  infer_instance

instance (log : List (Entry τ ε)) [DecidableEq τ] [DecidableEq ε] (e : Entry τ ε) :
    Decidable (Accepts log e) := by
  cases e <;> unfold Accepts <;> infer_instance

/-! ### One more entry -/

variable {e : Entry τ ε}

theorem Entry.tx_of_ends {t : τ} (h : e.Ends t) : e.tx = some t := by
  cases e with
  | commit u | abort u => exact congrArg some h
  | begin u | add u events | mark => exact absurd h not_false

/-- An entry that is neither the begin nor an end of `t` leaves `t` as it was. -/
theorem open_snoc_iff {log : List (Entry τ ε)} {t : τ}
    (hbegin : e ≠ .begin t) (hends : ¬ e.Ends t) : Open (log ++ [e]) t ↔ Open log t := by
  simp only [Open, mem_append, mem_singleton, hbegin.symm, or_false]
  constructor
  · rintro ⟨hmem, hall⟩
    exact ⟨hmem, fun e' he' => hall e' (Or.inl he')⟩
  · rintro ⟨hmem, hall⟩
    refine ⟨hmem, ?_⟩
    rintro e' (he' | rfl)
    · exact hall e' he'
    · exact hends

theorem not_open_snoc_of_ends {log : List (Entry τ ε)} {t : τ}
    (h : e.Ends t) : ¬ Open (log ++ [e]) t :=
  fun hopen => hopen.2 e (by simp) h

theorem open_snoc_begin {log : List (Entry τ ε)} {t : τ} (h : ∀ e ∈ log, ¬ e.Ends t) :
    Open (log ++ [.begin t]) t := by
  refine ⟨by simp, fun e he => ?_⟩
  rcases List.mem_append.mp he with he | he
  · exact h e he
  · obtain rfl := List.mem_singleton.mp he
    exact not_false

/-- An interruption is not forgotten. -/
theorem Interrupted.append {log : List (Entry τ ε)} {t : τ} (h : Interrupted log t)
    (log' : List (Entry τ ε)) : Interrupted (log ++ log') t := by
  obtain ⟨pre, e, post, u, rfl, hmem, htx, hne⟩ := h
  exact ⟨pre, e, post ++ log', u, by simp, hmem, htx, hne⟩

/-- An entry of `u` interrupts every other transaction that has begun. -/
theorem interrupted_snoc {log : List (Entry τ ε)} {t u : τ}
    (hbegin : .begin t ∈ log) (htx : e.tx = some u) (hne : u ≠ t) :
    Interrupted (log ++ [e]) t :=
  ⟨log, e, [], u, rfl, hbegin, htx, hne⟩

theorem Interleaved.append {log : List (Entry τ ε)} {t : τ} (h : Interleaved log t)
    (log' : List (Entry τ ε)) : Interleaved (log ++ log') t := by
  obtain ⟨pre, e, post, u, rfl, hmem, htx, hne, hcommit⟩ := h
  exact ⟨pre, e, post ++ log', u, by simp, hmem, htx, hne, mem_append_left _ hcommit⟩

/-- An interrupted transaction that commits later is interleaved. -/
theorem Interrupted.interleaved {log post : List (Entry τ ε)} {t : τ}
    (h : Interrupted log t) (hcommit : .commit t ∈ post) : Interleaved (log ++ post) t := by
  obtain ⟨pre, e, mid, u, rfl, hmem, htx, hne⟩ := h
  exact ⟨pre, e, mid ++ post, u, by simp, hmem, htx, hne, by simp [hcommit]⟩

/-! ### Contiguous transactions -/

theorem serial_nil : Serial ([] : List (Entry τ ε)) := by
  rintro t ⟨pre, e, post, u, hlog, -⟩
  simp at hlog

/-- Only a commit can make a serial log interleave a transaction, and only an interrupted
one. -/
theorem Serial.snoc {log : List (Entry τ ε)} (h : Serial log)
    (he : ∀ t, e = .commit t → ¬ Interrupted log t) : Serial (log ++ [e]) := by
  rintro t ⟨pre, e', post, u, hlog, hbegin, htx, hne, hcommit⟩
  obtain ⟨post', last, rfl⟩ : ∃ post' last, post = post' ++ [last] :=
    ⟨post.dropLast, post.getLast (ne_nil_of_mem hcommit), (dropLast_append_getLast _).symm⟩
  rw [← cons_append, ← append_assoc] at hlog
  obtain ⟨rfl, hlast⟩ := append_inj' hlog rfl
  obtain rfl := (cons.inj hlast).1
  rcases List.mem_append.mp hcommit with hcommit | hcommit
  · exact h t ⟨pre, e', post', u, rfl, hbegin, htx, hne, hcommit⟩
  · exact he t (List.mem_singleton.mp hcommit).symm ⟨pre, e', post', u, rfl, hbegin, htx, hne⟩

/-- An entry of the transaction itself, or of none, does not interrupt it. -/
theorem not_interrupted_snoc {log : List (Entry τ ε)} {t : τ} (h : ¬ Interrupted log t)
    (he : ∀ u, e.tx = some u → u = t) : ¬ Interrupted (log ++ [e]) t := by
  rintro ⟨pre, e', post, u, hlog, hbegin, htx, hne⟩
  rcases eq_nil_or_concat post with rfl | ⟨post', last, rfl⟩
  · obtain ⟨-, hlast⟩ := append_inj' hlog rfl
    obtain rfl := (cons.inj hlast).1
    exact hne (he u htx)
  · rw [concat_eq_append, ← cons_append, ← append_assoc] at hlog
    obtain ⟨rfl, -⟩ := append_inj' hlog rfl
    exact h ⟨pre, e', post', u, rfl, hbegin, htx, hne⟩

/-- A serial log, and the transaction its last entries belong to, with its events so far. -/
structure Tidy [DecidableEq τ] (log : List (Entry τ ε)) (current : Option (τ × List ε)) : Prop where
  serial : Serial log
  current : ∀ t events, current = some (t, events) →
    Open log t ∧ ¬ Interrupted log t ∧ eventsOf t log = events

section Tidy

variable [DecidableEq τ] {log : List (Entry τ ε)} {t : τ} {events : List ε}

theorem tidy_nil : Tidy ([] : List (Entry τ ε)) none := ⟨serial_nil, nofun⟩

/-- A new transaction abandons the current one. -/
theorem Tidy.begin {current : Option (τ × List ε)} (h : Tidy log current)
    (hfresh : ∀ e ∈ log, e.tx ≠ some t) : Tidy (log ++ [.begin t]) (some (t, [])) := by
  have hbegin : .begin t ∉ log := fun hmem => hfresh _ hmem rfl
  refine ⟨h.serial.snoc (by nofun), ?_⟩
  rintro t' events' ⟨⟩
  refine ⟨open_snoc_begin fun e he hends => hfresh e he (Entry.tx_of_ends hends), ?_, ?_⟩
  · refine not_interrupted_snoc ?_ fun u hu => (Option.some.inj hu).symm
    rintro ⟨pre, e, post, u, rfl, hmem, -⟩
    exact hbegin (mem_append_left _ hmem)
  · have hnone : eventsOf t log = [] := by
      rw [eventsOf, flatMap_eq_nil_iff]
      exact fun e he => Entry.eventsOf_of_tx_ne (hfresh e he)
    simp [hnone, Entry.eventsOf]

theorem Tidy.add (h : Tidy log (some (t, events))) (events' : List ε) :
    Tidy (log ++ [.add t events']) (some (t, events ++ events')) := by
  obtain ⟨hopen, hint, hevents⟩ := h.current t events rfl
  refine ⟨h.serial.snoc (by nofun), ?_⟩
  rintro t' events'' ⟨⟩
  refine ⟨(open_snoc_iff (by nofun) (by exact not_false)).mpr hopen,
    not_interrupted_snoc hint fun u hu => (Option.some.inj hu).symm, ?_⟩
  simp [hevents, Entry.eventsOf]

theorem Tidy.commit (h : Tidy log (some (t, events))) : Tidy (log ++ [.commit t]) none ∧
      committed (log ++ [.commit t]) = committed log ++ events := by
  obtain ⟨-, hint, hevents⟩ := h.current t events rfl
  refine ⟨⟨h.serial.snoc ?_, nofun⟩, ?_⟩
  · rintro t' ⟨⟩
    exact hint
  · rw [committed_snoc, ← hevents]
    rfl

theorem Tidy.mark {current : Option (τ × List ε)} (h : Tidy log current) :
    Tidy (log ++ [.mark]) current := by
  refine ⟨h.serial.snoc (by nofun), fun t events hcur => ?_⟩
  obtain ⟨hopen, hint, hevents⟩ := h.current t events hcur
  refine ⟨(open_snoc_iff (by nofun) (by exact not_false)).mpr hopen,
    not_interrupted_snoc hint (by nofun), ?_⟩
  simp [hevents, Entry.eventsOf]

end Tidy

end TxLog
