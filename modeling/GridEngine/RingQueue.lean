import Mathlib.Tactic

/-!
# Queues in a ring of slots

A queue is stored in the slots of a ring, from a head slot on, with the first slot behind the last
one. The entries are related to the slots by an arbitrary relation, so that a slot may hold less
than the queue's entry.
-/

namespace RingQueue
variable {α : Type*} {R R' : ℕ → α → Prop} {size head tail k l : ℕ} {queue : List α} {x : α}

/-- The slot `k` places behind the head. -/
def slot (size head k : ℕ) : ℕ := (head + k) % size

/-- The slot behind slot `i`. -/
def next (size i : ℕ) : ℕ := if i + 1 = size then 0 else i + 1

theorem next_eq_mod (h : head < size) : next size head = (head + 1) % size := by
  unfold next
  split_ifs with hwrap
  · rw [hwrap, Nat.mod_self]
  · exact (Nat.mod_eq_of_lt (by omega)).symm

@[simp] theorem slot_zero (h : head < size) : slot size head 0 = head := Nat.mod_eq_of_lt h

theorem slot_lt (h : head < size) : slot size head k < size := Nat.mod_lt _ (by omega)

theorem next_lt (h : head < size) : next size head < size := by
  rw [next_eq_mod h]
  exact Nat.mod_lt _ (by omega)

theorem next_ne (hsize : 1 < size) : next size head ≠ head := by
  unfold next
  split_ifs <;> omega

theorem next_slot (h : head < size) : next size (slot size head k) = slot size head (k + 1) := by
  rw [next_eq_mod (slot_lt h), slot, slot, Nat.mod_add_mod, Nat.add_assoc]

theorem slot_next (h : head < size) : slot size (next size head) k = slot size head (k + 1) := by
  rw [next_eq_mod h, slot, slot, Nat.mod_add_mod, Nat.add_assoc, Nat.add_comm 1]

/-- Different places less than one round behind the head are different slots. -/
theorem slot_inj (hk : k < size) (hl : l < size) (h : slot size head k = slot size head l) :
    k = l := by
  have hmod : k ≡ l [MOD size] := Nat.ModEq.add_left_cancel' head h
  rwa [Nat.ModEq, Nat.mod_eq_of_lt hk, Nat.mod_eq_of_lt hl] at hmod

/-- The slots from `head` to `tail` hold the queue. -/
structure Stores (R : ℕ → α → Prop) (size head tail : ℕ) (queue : List α) : Prop where
  head_lt : head < size
  length_le : queue.length ≤ size
  tail_eq : tail = slot size head queue.length
  stored : ∀ k x, queue[k]? = some x → R (slot size head k) x

theorem Stores.nil (h : head < size) : Stores R size head head ([] : List α) where
  head_lt := h
  length_le := Nat.zero_le _
  tail_eq := (slot_zero h).symm
  stored k x hx := by simp at hx

theorem Stores.imp (h : Stores R size head tail queue)
    (hR : ∀ k x, queue[k]? = some x → R (slot size head k) x → R' (slot size head k) x) :
    Stores R' size head tail queue where
  head_lt := h.head_lt
  length_le := h.length_le
  tail_eq := h.tail_eq
  stored k x hx := hR k x hx (h.stored k x hx)

/-- While the queue is not full, no entry is in the slot at the tail. -/
theorem Stores.slot_ne_tail (h : Stores R size head tail queue) (hfree : queue.length < size)
    (hk : k < queue.length) : slot size head k ≠ tail := by
  rw [h.tail_eq]
  intro heq
  have := slot_inj (by omega) hfree heq
  omega

theorem Stores.push (h : Stores R size head tail queue) (hfree : queue.length < size)
    (hkeep : ∀ i x, x ∈ queue → i ≠ tail → R i x → R' i x) (hnew : R' tail x) :
    Stores R' size head (next size tail) (queue ++ [x]) where
  head_lt := h.head_lt
  length_le := by
    rw [List.length_append, List.length_singleton]
    omega
  tail_eq := by
    rw [h.tail_eq, next_slot h.head_lt, List.length_append, List.length_singleton]
  stored k y hy := by
    rw [List.getElem?_append] at hy
    split_ifs at hy with hk
    · exact hkeep _ _ (List.mem_of_getElem? hy) (h.slot_ne_tail hfree hk) (h.stored k y hy)
    · obtain ⟨hk', rfl⟩ := List.getElem?_eq_some_iff.mp hy
      have hlast : k = queue.length := by
        rw [List.length_singleton] at hk'
        omega
      simpa [hlast, ← h.tail_eq] using hnew

theorem Stores.stored_head (h : Stores R size head tail (x :: queue)) : R head x := by
  have hstored := h.stored 0 x rfl
  rwa [slot_zero h.head_lt] at hstored

theorem Stores.pop (h : Stores R size head tail (x :: queue))
    (hkeep : ∀ i y, y ∈ queue → i ≠ head → R i y → R' i y) :
    Stores R' size (next size head) tail queue where
  head_lt := next_lt h.head_lt
  length_le := Nat.le_of_succ_le h.length_le
  tail_eq := by rw [h.tail_eq, slot_next h.head_lt, List.length_cons]
  stored k y hy := by
    rw [slot_next h.head_lt]
    have hlt : k < queue.length := (List.getElem?_eq_some_iff.mp hy).1
    have hlen := h.length_le
    rw [List.length_cons] at hlen
    refine hkeep _ _ (List.mem_of_getElem? hy) ?_ (h.stored (k + 1) y hy)
    intro heq
    have hslot : slot size head (k + 1) = slot size head 0 := by rw [heq, slot_zero h.head_lt]
    have hzero := slot_inj (by omega) (by omega) hslot
    omega

/-- An entry that is stored where the head is, and that tells its slot, is the first one. -/
theorem Stores.eq_head (h : Stores R size head tail queue)
    (huniq : ∀ i j y, R i y → R j y → i = j) (hmem : x ∈ queue) (hx : R head x) :
    queue.head? = some x := by
  obtain ⟨k, hk⟩ := List.mem_iff_getElem?.mp hmem
  have hlt : k < queue.length := (List.getElem?_eq_some_iff.mp hk).1
  have hlen := h.length_le
  have hslot : slot size head k = slot size head 0 := by
    rw [slot_zero h.head_lt]
    exact huniq _ _ _ (h.stored k x hk) hx
  have hzero := slot_inj (by omega) (by omega) hslot
  rw [List.head?_eq_getElem?, ← hzero, hk]

end RingQueue
