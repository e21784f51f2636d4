import LoraDb.ByteCodec

/-!
# Readers in Front of Bytes They Refuse

What a reader does with input that is cut short, that goes on after the value, or that
is framed correctly around content the reader does not take. Two relations say it, each with
one rule per combinator of `ByteCodec`.

## Main definitions

* `Steady m r`: a run of `r` that succeeds takes at least `m` bytes, all of them unread
  bytes of its input, and it succeeds in the same way in front of more bytes and at any
  other offset.
* `Judges r w Q`: in front of `w`, of a part of `w` or of more than `w`, the reader `r`
  either fails or takes exactly `w`, and then what it returns satisfies `Q`.

A reader that judges `w` with a false `Q` refuses `w` however the input goes on; one that
judges `w` at all refuses every proper prefix of it.
-/

namespace ByteCodec

open List

variable {ε α β γ : Type}

/-! ### Steady readers -/

/-- A successful run takes at least `m` unread bytes, and no others. More bytes behind
them, or another offset, change nothing. -/
def Steady (m : ℕ) (r : ByteReader ε α) : Prop :=
  ∀ c u x c', c < sizeLimit → r ⟨c, u⟩ = .ok (x, c') →
    ∃ w v, m ≤ w.length ∧ u = w ++ v ∧ c' = ⟨c + w.length, v⟩ ∧ c + w.length < sizeLimit ∧
      ∀ c₀ extra, c₀ + w.length < sizeLimit →
        r ⟨c₀, u ++ extra⟩ = .ok (x, ⟨c₀ + w.length, v ++ extra⟩)

variable {r : ByteReader ε α}

theorem Steady.mono {m n : ℕ} (hr : Steady m r) (h : n ≤ m) : Steady n r := by
  intro c u x c' hc hrun
  obtain ⟨w, v, hm, hrest⟩ := hr c u x c' hc hrun
  exact ⟨w, v, h.trans hm, hrest⟩

theorem Steady.pure (x : α) : Steady 0 (pure x : ByteReader ε α) := by
  intro c u y c' hc hrun
  obtain ⟨rfl, rfl⟩ := Prod.mk.inj (Except.ok.inj hrun)
  exact ⟨[], u, le_refl _, rfl, rfl, hc, fun _ _ _ => rfl⟩

theorem Steady.fail (m : ℕ) (e : ε) : Steady m (fail e : ByteReader ε α) := by
  intro c u x c' _ hrun
  cases hrun

variable {f : α → ByteReader ε β}

/-- Sequencing adds what the two readers take. -/
theorem Steady.bind {m n : ℕ}
    (hr : Steady m r) (hf : ∀ x, Steady n (f x)) : Steady (m + n) (r >>= f) := by
  intro c u y c' hc hrun
  obtain ⟨x, mid, hfirst, hsecond⟩ := bind_run_eq_ok.mp hrun
  obtain ⟨w, v, hm, rfl, rfl, hlt, hagain⟩ := hr c u x mid hc hfirst
  obtain ⟨w', v', hn, rfl, rfl, hlt', hagain'⟩ := hf x _ v y c' hlt hsecond
  refine ⟨w ++ w', v', ?_, by simp, by simp [Nat.add_assoc], ?_, ?_⟩
  · rw [length_append]
    omega
  · rw [length_append]
    omega
  · intro c₀ extra h₀
    rw [length_append] at h₀ ⊢
    have h₁ := hagain c₀ extra (by omega)
    have h₂ := hagain' (c₀ + w.length) extra (by omega)
    rw [Nat.add_assoc] at h₂
    exact bind_run_eq_ok.mpr ⟨_, _, h₁, h₂⟩

/-- A last step that reads nothing more. -/
theorem Steady.bind_last {m : ℕ}
    (hr : Steady m r) (hf : ∀ x, Steady 0 (f x)) : Steady m (r >>= f) :=
  (hr.bind hf).mono (by omega)

/-- Sequencing when it does not matter how much is taken. -/
theorem Steady.next {m n : ℕ} (hr : Steady m r) (hf : ∀ x, Steady n (f x)) : Steady 0 (r >>= f) :=
  (hr.bind hf).mono (Nat.zero_le _)

theorem Steady.map {m : ℕ} (hr : Steady m r) (f : α → β) : Steady m (f <$> r) := by
  rw [← bind_pure_comp]
  exact hr.bind_last fun x => Steady.pure _

theorem Steady.exact (E : WireErrors ε) (len : ℕ) : Steady len (readExact E len) := by
  intro c u x c' _ hrun
  unfold readExact at hrun
  split at hrun
  · cases hrun
  split at hrun
  · cases hrun
  next hlimit hleft =>
    obtain ⟨rfl, rfl⟩ := Prod.mk.inj (Except.ok.inj hrun)
    simp only at hlimit hleft
    have hlen : (u.take len).length = len := by
      rw [length_take]
      omega
    refine ⟨u.take len, u.drop len, by omega, (take_append_drop len u).symm, ?_, ?_, ?_⟩
    · rw [hlen]
    · omega
    · intro c₀ extra h₀
      have h₁ : ¬ sizeLimit ≤ c₀ + len := by omega
      have h₂ : ¬ (u ++ extra).length < len := by
        rw [length_append]
        omega
      simp only [readExact, if_neg h₁, if_neg h₂, hlen]
      rw [take_append_of_le_length (by omega), drop_append_of_le_length (by omega)]

theorem Steady.byte (E : WireErrors ε) : Steady 1 (readByte E) := (Steady.exact E 1).map _

theorem Steady.nat (E : WireErrors ε) (k : ℕ) : Steady k (readNat E k) :=
  (Steady.exact E k).map _

/-- A count that is accepted is the number it is without the bound. -/
theorem readCount_eq_ok {E : WireErrors ε} {label : String} {c : Cursor} {out : ℕ × Cursor} :
    readCount E label c = .ok out ↔ readNat E 8 c = .ok out ∧ out.1 ≤ out.2.unread.length := by
  obtain ⟨n, c'⟩ := out
  simp only [readCount, bind_run_eq_ok]
  constructor
  · rintro ⟨len, mid, hlen, left, mid', hleft, hend⟩
    obtain ⟨rfl, rfl⟩ := Prod.mk.inj (Except.ok.inj hleft)
    split at hend
    · cases hend
    · next hfit =>
        obtain ⟨rfl, rfl⟩ := Prod.mk.inj (Except.ok.inj hend)
        exact ⟨hlen, by simpa using hfit⟩
  · rintro ⟨hlen, hfit⟩
    refine ⟨n, c', hlen, _, _, rfl, ?_⟩
    rw [if_neg (by simpa using hfit)]
    rfl

theorem Steady.count (E : WireErrors ε) (label : String) : Steady 8 (readCount E label) := by
  intro c u n c' hc hrun
  obtain ⟨hnat, hfit⟩ := readCount_eq_ok.mp hrun
  obtain ⟨w, v, hm, rfl, rfl, hlt, hagain⟩ := Steady.nat E 8 c u n c' hc hnat
  refine ⟨w, v, hm, rfl, rfl, hlt, fun c₀ extra h₀ => ?_⟩
  refine readCount_eq_ok.mpr ⟨hagain c₀ extra h₀, ?_⟩
  simp only at hfit
  simp only [length_append]
  omega

theorem Steady.block (E : WireErrors ε) : Steady 8 (readBlock E) :=
  (Steady.nat E 8).bind_last fun len => (Steady.exact E len).mono (by omega)

theorem Steady.text (E : WireErrors ε) : Steady 8 (readText E) := by
  refine (Steady.block E).bind_last fun bytes => ?_
  split
  · exact Steady.pure _
  · exact Steady.fail _ _

theorem Steady.times (hr : Steady 0 r) (n : ℕ) : Steady 0 (readTimes r n) := by
  induction n with
  | zero => exact Steady.pure []
  | succ n ih => exact hr.bind_last fun x => ih.bind_last fun xs => Steady.pure _

/-- A collection: its length, and then elements that take what they take. -/
theorem Steady.collection (E : WireErrors ε) (label : String) (hr : Steady 0 r) (f : List α → β) :
    Steady 8 (readCount E label >>= fun len => readTimes r len >>= fun xs => Pure.pure (f xs)) :=
  (Steady.count E label).bind_last fun len => (hr.times len).bind_last fun _ => Steady.pure _

/-- A successful run takes some of the unread bytes, and no others. -/
def Advances (r : ByteReader ε α) : Prop :=
  ∀ c x c', c.consumed < sizeLimit → r c = .ok (x, c') →
    ∃ w, w ≠ [] ∧ c.unread = w ++ c'.unread ∧ c'.consumed = c.consumed + w.length

theorem Steady.advances {m : ℕ} (hr : Steady m r) (hm : 1 ≤ m) : Advances r := by
  intro c x c' hc hrun
  obtain ⟨w, v, hlen, hu, rfl, -⟩ := hr c.consumed c.unread x c' hc hrun
  exact ⟨w, ne_nil_of_length_pos (by omega), hu, rfl⟩

/-- A check takes what the reader takes that it stands for. -/
theorem Accepts.advances {check : ByteReader ε Unit}
    (h : Accepts check r) (hr : Advances r) : Advances check := by
  intro c _ c' hc hrun
  obtain ⟨x, hx⟩ := (h c c').mp hrun
  exact hr c x c' hc hx

/-! ### Readers that judge a byte string -/

/-- In front of `w`, of a part of it or of more than it, `r` fails or takes exactly
`w` and returns something that satisfies `Q`. -/
def Judges (r : ByteReader ε α) (w : Bytes) (Q : α → Prop) : Prop :=
  ∀ c u x c', c < sizeLimit → (w <+: u ∨ u <+: w) → r ⟨c, u⟩ = .ok (x, c') →
    Q x ∧ ∃ v, u = w ++ v ∧ c' = ⟨c + w.length, v⟩ ∧ c + w.length < sizeLimit

variable {w : Bytes}

theorem Judges.mono {P Q : α → Prop} (hr : Judges r w P) (h : ∀ x, P x → Q x) : Judges r w Q := by
  intro c u x c' hc hcomp hrun
  obtain ⟨hx, htaken⟩ := hr c u x c' hc hcomp hrun
  exact ⟨h x hx, htaken⟩

theorem Judges.fail (e : ε) (w : Bytes) (Q : α → Prop) : Judges (fail e : ByteReader ε α) w Q := by
  intro c u x c' _ _ hrun
  cases hrun

theorem Judges.pure {x : α} {Q : α → Prop} (h : Q x) : Judges (pure x : ByteReader ε α) [] Q := by
  intro c u y c' hc _ hrun
  obtain ⟨rfl, rfl⟩ := Prod.mk.inj (Except.ok.inj hrun)
  exact ⟨h, u, rfl, rfl, hc⟩

/-- Sequencing: the second reader only ever stands in front of its own bytes. -/
theorem Judges.bind {w w' : Bytes}
    {P : α → Prop} {Q : β → Prop} (hr : Judges r w P) (hf : ∀ x, P x → Judges (f x) w' Q) :
    Judges (r >>= f) (w ++ w') Q := by
  intro c u y c' hc hcomp hrun
  obtain ⟨x, mid, hfirst, hsecond⟩ := bind_run_eq_ok.mp hrun
  have hcomp₁ : w <+: u ∨ u <+: w := by
    rcases hcomp with h | h
    · exact .inl ((prefix_append w w').trans h)
    · exact prefix_or_prefix_of_prefix (prefix_append w w') h
  obtain ⟨hx, v, rfl, rfl, hlt⟩ := hr c u x mid hc hcomp₁ hfirst
  have hcomp₂ : w' <+: v ∨ v <+: w' := by simpa only [prefix_append_right_inj] using hcomp
  obtain ⟨hy, v', rfl, rfl, hlt'⟩ := hf x hx _ v y c' hlt hcomp₂ hsecond
  refine ⟨hy, v', by simp, by simp [Nat.add_assoc], ?_⟩
  rw [length_append]
  omega

/-- A last step that reads nothing more. -/
theorem Judges.bind_last
    {P : α → Prop} {Q : β → Prop} (hr : Judges r w P) (hf : ∀ x, P x → Judges (f x) [] Q) :
    Judges (r >>= f) w Q := by
  simpa using hr.bind hf

theorem Judges.map {P : α → Prop} {Q : β → Prop}
    {f : α → β} (hr : Judges r w P) (h : ∀ x, P x → Q (f x)) : Judges (f <$> r) w Q := by
  rw [← bind_pure_comp]
  exact hr.bind_last fun x hx => Judges.pure (h x hx)

/-- A steady reader judges every byte string that it takes whole. -/
theorem Judges.of_steady {m : ℕ} {x : α} {n : ℕ}
    (hr : Steady m r) (hw : r ⟨0, w⟩ = .ok (x, ⟨n, []⟩)) : Judges r w (· = x) := by
  intro c u y c' hc hcomp hrun
  obtain ⟨w₀, v₀, -, hsplit, hend, hlt₀, hagain₀⟩ := hr 0 w _ _ (by decide) hw
  obtain ⟨-, rfl⟩ := Cursor.mk.inj hend
  obtain rfl : w = w₀ := by rw [hsplit, append_nil]
  obtain ⟨w₁, v₁, -, rfl, rfl, hlt₁, hagain₁⟩ := hr c u y c' hc hrun
  rcases hcomp with ⟨e, he⟩ | ⟨e, he⟩
  · -- both runs, in front of the longer input
    have h₀ := hagain₀ 0 e hlt₀
    have h₁ := hagain₁ 0 [] (by omega)
    rw [append_nil, ← he, h₀] at h₁
    obtain ⟨rfl, hcursor⟩ := Prod.mk.inj (Except.ok.inj h₁)
    obtain ⟨hlen, hleft⟩ := Cursor.mk.inj hcursor
    simp only [nil_append, append_nil] at hleft
    have hlen' : w.length = w₁.length := by omega
    exact ⟨rfl, e, he.symm, by rw [hlen', hleft], by omega⟩
  · have h₁ := hagain₁ 0 e (by omega)
    rw [he, hw] at h₁
    obtain ⟨rfl, hcursor⟩ := Prod.mk.inj (Except.ok.inj h₁)
    obtain ⟨-, hleft⟩ := Cursor.mk.inj hcursor
    obtain ⟨rfl, rfl⟩ := List.append_eq_nil_iff.mp hleft.symm
    simp only [append_nil] at he
    subst he
    exact ⟨rfl, [], by simp, rfl, hlt₁⟩

theorem Judges.of_reads {m : ℕ} {x : α} (hr : Steady m r)
    (h : Reads r w x) (hlt : w.length < sizeLimit) : Judges r w (· = x) := by
  have hrun := h 0 [] (by omega)
  rw [append_nil] at hrun
  exact Judges.of_steady hr hrun

theorem Judges.byte (E : WireErrors ε) (b : UInt8) : Judges (readByte E) [b] (· = b) :=
  Judges.of_reads (Steady.byte E) (Reads.byte E b) (by simp [sizeLimit])

/-- A tag byte, and behind it what its reader judges. -/
theorem Judges.tag (E : WireErrors ε) {b : UInt8} {f : UInt8 → ByteReader ε β}
    {Q : β → Prop} (h : Judges (f b) w Q) : Judges (readByte E >>= f) (b :: w) Q := by
  refine (Judges.byte E b).bind fun x hx => ?_
  subst hx
  exact h

/-- An eight-byte number. -/
theorem Judges.word (E : WireErrors ε) {n : ℕ} (h : n < sizeLimit) :
    Judges (readNat E 8) (leBytes 8 n) (· = n) :=
  Judges.of_reads (Steady.nat E 8) (Reads.nat E (by rwa [← sizeLimit_eq]))
    (by rw [leBytes_length]; decide)

theorem Judges.count (E : WireErrors ε) (label : String) {n : ℕ} (h : n < sizeLimit) :
    Judges (readCount E label) (leBytes 8 n) (· = n) := by
  intro c u x c' hc hcomp hrun
  exact Judges.word E h c u x c' hc hcomp (readCount_eq_ok.mp hrun).1

theorem Judges.block (E : WireErrors ε) {bytes : Bytes} (h : bytes.length < sizeLimit) :
    Judges (readBlock E) (leBytes 8 bytes.length ++ bytes) (· = bytes) := by
  refine (Judges.word E h).bind fun len hlen => ?_
  subst hlen
  exact Judges.of_reads (Steady.exact E _) (Reads.exact E bytes) h

/-- A text field judges its bytes by whether they are UTF-8. -/
theorem Judges.text (E : WireErrors ε) {bytes : Bytes} (h : bytes.length < sizeLimit) :
    Judges (readText E) (leBytes 8 bytes.length ++ bytes) (fun s => ofUtf8 bytes = some s) := by
  refine (Judges.block E h).bind_last fun b hb => ?_
  subst hb
  split
  · next hs => exact Judges.pure hs
  · exact Judges.fail _ _ _

/-- Elements one after the other are judged one by one. -/
theorem Judges.times {bytes : γ → Bytes} {P : γ → Prop} {xs : List γ}
    (h : ∀ x ∈ xs, Judges r (bytes x) fun _ => P x) :
    Judges (readTimes r xs.length) (xs.flatMap bytes) fun _ => ∀ x ∈ xs, P x := by
  induction xs with
  | nil => exact Judges.pure (by simp)
  | cons x xs ih =>
    rw [flatMap_cons]
    refine (h x (by simp)).bind fun _ hx => ?_
    refine (ih fun y hy => h y (by simp [hy])).bind_last fun _ hxs => Judges.pure ?_
    exact List.forall_mem_cons.mpr ⟨hx, hxs⟩

/-- A collection is judged by its elements, and its length by how many there are. -/
theorem Judges.collection (E : WireErrors ε) (label : String)
    {bytes : γ → Bytes} {P : γ → Prop} {xs : List γ} {f : List α → β}
    (hlt : xs.length < sizeLimit) (h : ∀ x ∈ xs, Judges r (bytes x) fun _ => P x) :
    Judges (readCount E label >>= fun len => readTimes r len >>= fun ys => Pure.pure (f ys))
      (leBytes 8 xs.length ++ xs.flatMap bytes) fun _ => ∀ x ∈ xs, P x := by
  refine (Judges.count E label hlt).bind fun len hlen => ?_
  subst hlen
  exact (Judges.times h).bind_last fun _ hxs => Judges.pure hxs

/-- A whole input that is a judged byte string is accepted only with `Q`. -/
theorem Judges.readAll {Q : α → Prop} (h : Judges r w Q)
    {trailing : ℕ → ε} {u : Bytes} (hcomp : w <+: u ∨ u <+: w) {x : α}
    (hrun : ByteCodec.readAll trailing r u = .ok x) : Q x ∧ u = w := by
  obtain ⟨n, hrun⟩ := readAll_eq_ok.mp hrun
  obtain ⟨hx, v, rfl, hend, -⟩ := h 0 u x _ (by decide) hcomp hrun
  obtain ⟨-, rfl⟩ := Cursor.mk.inj hend
  exact ⟨hx, by simp⟩

end ByteCodec
