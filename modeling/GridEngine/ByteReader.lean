import Mathlib.Data.List.Basic

/-!
# Readers of a byte buffer

A reader moves a cursor over a buffer. Besides a value and an error it has two more outcomes: it
read a byte outside of the buffer, or its fuel was used up. `Reads` is the partner of a writer: the
reader takes exactly the given bytes, wherever they stand. `Bounded` says what a reader does on
any buffer: it stays inside unless it scans for a zero byte that is not there, and it comes to an
end when the fuel covers the rest of the buffer.
-/

namespace ByteReader

/-- A buffer with a read position. `scans` records where the end of a string was searched. -/
structure Cursor where
  mem : List UInt8
  pos : ℕ
  scans : List ℕ

inductive Outcome (ε α : Type)
  | success (a : α)
  | failure (e : ε)
  | overrun
  | noFuel

/-- The error of a failure. -/
def Outcome.error? {ε α : Type} : Outcome ε α → Option ε
  | .failure e => some e
  | _ => none

def Reader (ε α : Type) := Cursor → Outcome ε α × Cursor

namespace Reader
variable {ε α β : Type}

protected def pure (a : α) : Reader ε α := fun c => (.success a, c)

protected def bind (r : Reader ε α) (f : α → Reader ε β) : Reader ε β := fun c =>
  match r c with
  | (.success a, c) => f a c
  | (.failure e, c) => (.failure e, c)
  | (.overrun, c) => (.overrun, c)
  | (.noFuel, c) => (.noFuel, c)

instance : Monad (Reader ε) where
  pure := Reader.pure
  bind := Reader.bind

def fail (e : ε) : Reader ε α := fun c => (.failure e, c)

def outOfFuel : Reader ε α := fun c => (.noFuel, c)

/-- Turns a failure into a value. The cursor stays where the failure left it. -/
def attempt (r : Reader ε α) : Reader ε (Except ε α) := fun c =>
  match r c with
  | (.success a, c) => (.success (.ok a), c)
  | (.failure e, c) => (.success (.error e), c)
  | (.overrun, c) => (.overrun, c)
  | (.noFuel, c) => (.noFuel, c)

/-- Takes `n` bytes without any check. -/
def take (n : ℕ) : Reader ε (List UInt8) := fun c =>
  if c.pos + n ≤ c.mem.length then
    (.success ((c.mem.drop c.pos).take n), { c with pos := c.pos + n })
  else (.overrun, c)

/-- Takes `n` bytes, or fails when they are not there. -/
def takeOr (e : ε) (n : ℕ) : Reader ε (List UInt8) := fun c =>
  if c.mem.length < c.pos + n then (.failure e, c) else take n c

/-- The same reader `n` times. -/
def many (r : Reader ε α) : ℕ → Reader ε (List α)
  | 0 => pure []
  | n + 1 => do
      let a ← r
      let rest ← many r n
      pure (a :: rest)

/-- The reader takes exactly these bytes. -/
def Reads (r : Reader ε α) (bytes : List UInt8) (a : α) : Prop :=
  ∀ before after scans, ∃ scans',
    r ⟨before ++ bytes ++ after, before.length, scans⟩ =
      (.success a, ⟨before ++ bytes ++ after, (before ++ bytes).length, scans'⟩)

section Reads
variable {r : Reader ε α} {f : α → Reader ε β} {a : α} {b : β} {bytes bytes' : List UInt8}

theorem Reads.pure (a : α) : (Pure.pure a : Reader ε α).Reads [] a := by
  intro before after scans
  exact ⟨scans, by simp [Pure.pure, Reader.pure]⟩

theorem Reads.bind (hr : r.Reads bytes a) (hf : (f a).Reads bytes' b) :
    (r >>= f).Reads (bytes ++ bytes') b := by
  intro before after scans
  obtain ⟨scans', hr⟩ := hr before (bytes' ++ after) scans
  obtain ⟨scans'', hf⟩ := hf (before ++ bytes) after scans'
  simp only [List.append_assoc] at hr hf
  refine ⟨scans'', ?_⟩
  simp only [Bind.bind, Reader.bind, List.append_assoc, hr, hf]

theorem Reads.bind_nil (hr : r.Reads bytes a) (hf : (f a).Reads [] b) :
    (r >>= f).Reads bytes b := by
  have h := hr.bind hf
  rwa [List.append_nil] at h

theorem Reads.unique {a' : α} (hr : r.Reads bytes a) (hr' : r.Reads bytes a') : a = a' := by
  obtain ⟨scans, hr⟩ := hr [] [] []
  obtain ⟨scans', hr'⟩ := hr' [] [] []
  rw [hr] at hr'
  exact Outcome.success.inj (Prod.mk.inj hr').1

theorem Reads.map {g : α → β} (hr : r.Reads bytes a) :
    (do let a ← r; Pure.pure (g a) : Reader ε β).Reads bytes (g a) :=
  hr.bind_nil (Reads.pure (g a))

theorem Reads.attempt (hr : r.Reads bytes a) : r.attempt.Reads bytes (.ok a) := by
  intro before after scans
  obtain ⟨scans', hr⟩ := hr before after scans
  refine ⟨scans', ?_⟩
  simp only [Reader.attempt, hr]

theorem Reads.takeOr (e : ε) (bytes : List UInt8) : (takeOr e bytes.length).Reads bytes bytes := by
  intro before after scans
  refine ⟨scans, ?_⟩
  have hmem : before.length + bytes.length ≤ (before ++ bytes ++ after).length := by
    simp only [List.length_append]
    omega
  have hbytes : ((before ++ bytes ++ after).drop before.length).take bytes.length = bytes := by
    rw [List.append_assoc, List.drop_left, List.take_left]
  rw [Reader.takeOr, if_neg (Nat.not_lt.mpr hmem), take, if_pos hmem, hbytes, List.length_append]

/-- `many` reads the concatenation of what the single readers read. -/
theorem Reads.many {ι : Type} {items : List ι} {write : ι → List UInt8} {result : ι → α}
    (h : ∀ i ∈ items, r.Reads (write i) (result i)) :
    (many r items.length).Reads (items.flatMap write) (items.map result) := by
  induction items with
  | nil => exact Reads.pure []
  | cons i items ih =>
      rw [List.flatMap_cons, List.map_cons]
      have hrest := ih fun j hj => h j (List.mem_cons_of_mem _ hj)
      exact Reads.bind (h i List.mem_cons_self) hrest.map

/-- The reader fails on these bytes, wherever they stand. -/
def Rejects (r : Reader ε α) (bytes : List UInt8) (e : ε) : Prop :=
  ∀ before after scans, ∃ c, r ⟨before ++ bytes ++ after, before.length, scans⟩ = (.failure e, c)

theorem Rejects.fail (bytes : List UInt8) (e : ε) : (fail e : Reader ε α).Rejects bytes e := by
  intro before after scans
  exact ⟨_, rfl⟩

theorem Rejects.bind {e : ε} (hr : r.Rejects bytes e) : (r >>= f).Rejects bytes e := by
  intro before after scans
  obtain ⟨c, hr⟩ := hr before after scans
  exact ⟨c, by simp only [Bind.bind, Reader.bind, hr]⟩

theorem Reads.rejects {e : ε} (hr : r.Reads bytes a) (hf : (f a).Rejects bytes' e) :
    (r >>= f).Rejects (bytes ++ bytes') e := by
  intro before after scans
  obtain ⟨scans', hr⟩ := hr before (bytes' ++ after) scans
  obtain ⟨c, hf⟩ := hf (before ++ bytes) after scans'
  simp only [List.append_assoc] at hr hf
  exact ⟨c, by simp only [Bind.bind, Reader.bind, List.append_assoc, hr, hf]⟩

end Reads

/-- There is a zero byte at the position or later. -/
def ZeroAhead (mem : List UInt8) (p : ℕ) : Prop := ∃ i, p ≤ i ∧ mem[i]? = some 0

/-- What a reader does on any buffer; `fuel` is the number of bytes it can cover. -/
structure Step (fuel : ℕ) (c : Cursor) (o : Outcome ε α) (c' : Cursor) : Prop where
  mem : c'.mem = c.mem
  inside : o ≠ .overrun → c.pos ≤ c'.pos ∧ c'.pos ≤ c'.mem.length
  scans : ∃ new, c'.scans = c.scans ++ new ∧ (o = .overrun ↔ ∃ p ∈ new, ¬ ZeroAhead c.mem p)
  ends : c.mem.length < c.pos + fuel → o ≠ .noFuel

def Bounded (fuel : ℕ) (r : Reader ε α) : Prop :=
  ∀ c : Cursor, c.pos ≤ c.mem.length → Step fuel c (r c).1 (r c).2

section Bounded
variable {r : Reader ε α} {f : α → Reader ε β} {fuel : ℕ}

theorem Step.stay {c : Cursor} {o : Outcome ε α} (hc : c.pos ≤ c.mem.length)
    (hover : o ≠ .overrun) (hfuel : o ≠ .noFuel) : Step fuel c o c :=
  ⟨rfl, fun _ => ⟨Nat.le_refl _, hc⟩, ⟨[], by simp, by simp [hover]⟩, fun _ => hfuel⟩

theorem Bounded.pure (a : α) : Bounded fuel (Pure.pure a : Reader ε α) := by
  intro c hc
  exact Step.stay hc (by simp [Pure.pure, Reader.pure]) (by simp [Pure.pure, Reader.pure])

theorem Bounded.fail (e : ε) : Bounded fuel (Reader.fail e : Reader ε α) := by
  intro c hc
  exact Step.stay hc (by simp [Reader.fail]) (by simp [Reader.fail])

/-- Without fuel nothing is left to read. -/
theorem Bounded.outOfFuel : Bounded 0 (Reader.outOfFuel : Reader ε α) := by
  intro c hc
  refine ⟨rfl, fun _ => ⟨Nat.le_refl _, hc⟩, ⟨[], by simp [Reader.outOfFuel], by simp [Reader.outOfFuel]⟩,
    fun h => ?_⟩
  omega

/-- Two steps make one step. The second one needs less fuel when the first one moved. -/
theorem Step.trans {k : ℕ} {a : α} {o : Outcome ε β} {c c₁ c₂ : Cursor}
    (h₁ : Step (fuel + k) c (.success a : Outcome ε α) c₁) (hk : c.pos + k ≤ c₁.pos)
    (h₂ : Step fuel c₁ o c₂) : Step (fuel + k) c o c₂ := by
  obtain ⟨new₁, hnew₁, hover₁⟩ := h₁.scans
  obtain ⟨new₂, hnew₂, hover₂⟩ := h₂.scans
  have hgood : ∀ p ∈ new₁, ZeroAhead c.mem p := by
    intro p hp
    by_contra hbad
    have hcontra := hover₁.mpr ⟨p, hp, hbad⟩
    cases hcontra
  constructor
  · exact h₂.mem.trans h₁.mem
  · intro ho
    have hin₁ := h₁.inside (by simp)
    have hin₂ := h₂.inside ho
    exact ⟨Nat.le_trans hin₁.1 hin₂.1, hin₂.2⟩
  · refine ⟨new₁ ++ new₂, by rw [hnew₂, hnew₁, List.append_assoc], ?_⟩
    rw [hover₂, h₁.mem]
    constructor
    · intro h
      obtain ⟨p, hp, hbad⟩ := h
      exact ⟨p, List.mem_append_right _ hp, hbad⟩
    · intro h
      obtain ⟨p, hp, hbad⟩ := h
      rcases List.mem_append.mp hp with hp | hp
      · exact absurd (hgood p hp) hbad
      · exact ⟨p, hp, hbad⟩
  · intro hfuel
    apply h₂.ends
    rw [h₁.mem]
    omega

/-- Every successful run moves the cursor. -/
def Advances (r : Reader ε α) : Prop := ∀ c a c', r c = (.success a, c') → c.pos < c'.pos

theorem bind_eq (r : Reader ε α) (f : α → Reader ε β) (c : Cursor) :
    (r >>= f) c = match r c with
      | (.success a, c) => f a c
      | (.failure e, c) => (.failure e, c)
      | (.overrun, c) => (.overrun, c)
      | (.noFuel, c) => (.noFuel, c) := rfl

theorem bind_eq_success {b : β} {c c' : Cursor} (h : (r >>= f) c = (.success b, c')) :
    ∃ a c₁, r c = (.success a, c₁) ∧ f a c₁ = (.success b, c') := by
  rw [bind_eq] at h
  cases hrun : r c with
  | mk o c₁ =>
      rw [hrun] at h
      cases o with
      | success a => exact ⟨a, c₁, rfl, h⟩
      | failure e => cases h
      | overrun => cases h
      | noFuel => cases h

theorem Step.pass {o : Outcome ε α} {o' : Outcome ε β} {c c' : Cursor} (h : Step fuel c o c')
    (hover : o = .overrun ↔ o' = .overrun) (hfuel : o = .noFuel ↔ o' = .noFuel) :
    Step fuel c o' c' := by
  refine ⟨h.mem, fun ho => h.inside fun heq => ho (hover.mp heq), ?_, fun hlt heq =>
    h.ends hlt (hfuel.mpr heq)⟩
  obtain ⟨new, hnew, hbad⟩ := h.scans
  exact ⟨new, hnew, hover.symm.trans hbad⟩

private theorem Bounded.bind_aux {k : ℕ} (hr : Bounded (fuel + k) r)
    (hk : ∀ c a c', c.pos ≤ c.mem.length → r c = (.success a, c') → c.pos + k ≤ c'.pos)
    (hf : ∀ a, Bounded fuel (f a)) : Bounded (fuel + k) (r >>= f) := by
  intro c hc
  have hstep := hr c hc
  rw [bind_eq]
  cases hrun : r c with
  | mk o c₁ =>
      rw [hrun] at hstep
      cases o with
      | success a =>
          have hin := hstep.inside (by simp)
          exact hstep.trans (hk c a c₁ hc hrun) (hf a c₁ hin.2)
      | failure e => exact hstep.pass (by simp) (by simp)
      | overrun => exact hstep.pass (by simp) (by simp)
      | noFuel => exact hstep.pass (by simp) (by simp)

theorem Bounded.bind (hr : Bounded fuel r) (hf : ∀ a, Bounded fuel (f a)) :
    Bounded fuel (r >>= f) := by
  refine Bounded.bind_aux (k := 0) hr ?_ hf
  intro c a c' hc hrun
  have hstep := hr c hc
  rw [hrun] at hstep
  exact (hstep.inside (by simp)).1

theorem Bounded.bind_advances (hr : Bounded (fuel + 1) r) (hadvances : Advances r)
    (hf : ∀ a, Bounded fuel (f a)) : Bounded (fuel + 1) (r >>= f) :=
  Bounded.bind_aux hr (fun c a c' _ hrun => hadvances c a c' hrun) hf

theorem Bounded.anti {fuel' : ℕ} (h : Bounded fuel' r) (hle : fuel ≤ fuel') : Bounded fuel r := by
  intro c hc
  have hstep := h c hc
  exact ⟨hstep.mem, hstep.inside, hstep.scans, fun hlt => hstep.ends (by omega)⟩

theorem Bounded.attempt (h : Bounded fuel r) : Bounded fuel r.attempt := by
  intro c hc
  have hstep := h c hc
  unfold Reader.attempt
  cases hrun : r c with
  | mk o c₁ =>
      rw [hrun] at hstep
      cases o with
      | success a => exact hstep.pass (by simp) (by simp)
      | failure e => exact hstep.pass (by simp) (by simp)
      | overrun => exact hstep.pass (by simp) (by simp)
      | noFuel => exact hstep.pass (by simp) (by simp)

theorem Bounded.attempt_bind {g : Except ε α → Reader ε β} (hr : Bounded (fuel + 1) r)
    (hadvances : Advances r) (hok : ∀ a, Bounded fuel (g (.ok a)))
    (herror : ∀ e, Bounded (fuel + 1) (g (.error e))) : Bounded (fuel + 1) (r.attempt >>= g) := by
  intro c hc
  have hstep := hr c hc
  rw [bind_eq, Reader.attempt]
  cases hrun : r c with
  | mk o c₁ =>
      rw [hrun] at hstep
      cases o with
      | success a =>
          have hin := hstep.inside (by simp)
          have hpass : Step (fuel + 1) c (.success (.ok a) : Outcome ε (Except ε α)) c₁ :=
            hstep.pass (by simp) (by simp)
          exact hpass.trans (hadvances c a c₁ hrun) (hok a c₁ hin.2)
      | failure e =>
          have hin := hstep.inside (by simp)
          have hpass : Step (fuel + 1 + 0) c (.success (.error e) : Outcome ε (Except ε α)) c₁ :=
            hstep.pass (by simp) (by simp)
          exact hpass.trans hin.1 (herror e c₁ hin.2)
      | overrun => exact hstep.pass (by simp) (by simp)
      | noFuel => exact hstep.pass (by simp) (by simp)

theorem Bounded.many (h : Bounded fuel r) (n : ℕ) : Bounded fuel (many r n) := by
  induction n with
  | zero => exact Bounded.pure []
  | succ n ih => exact h.bind fun a => ih.bind fun rest => Bounded.pure (a :: rest)

theorem Bounded.takeOr (e : ε) (n : ℕ) : Bounded fuel (takeOr e n) := by
  intro c hc
  unfold Reader.takeOr
  by_cases hn : c.mem.length < c.pos + n
  · rw [if_pos hn]
    exact Step.stay hc (by simp) (by simp)
  · rw [if_neg hn, take, if_pos (Nat.not_lt.mp hn)]
    exact ⟨rfl, fun _ => ⟨Nat.le_add_right _ _, Nat.not_lt.mp hn⟩, ⟨[], by simp, by simp⟩, by simp⟩

theorem Advances.takeOr (e : ε) {n : ℕ} (hn : 0 < n) : Advances (takeOr e n) := by
  intro c a c' hrun
  unfold Reader.takeOr at hrun
  by_cases hlt : c.mem.length < c.pos + n
  · rw [if_pos hlt] at hrun
    cases hrun
  · rw [if_neg hlt, take, if_pos (Nat.not_lt.mp hlt)] at hrun
    cases hrun
    exact Nat.lt_add_of_pos_right hn

theorem Advances.map {g : α → β} (h : Advances r) :
    Advances (do let a ← r; Pure.pure (g a) : Reader ε β) := by
  intro c b c' hrun
  rw [bind_eq] at hrun
  cases hr : r c with
  | mk o c₁ =>
      rw [hr] at hrun
      cases o with
      | success a =>
          have hmove := h c a c₁ hr
          cases hrun
          exact hmove
      | failure e => cases hrun
      | overrun => cases hrun
      | noFuel => cases hrun

end Bounded

end Reader
end ByteReader
