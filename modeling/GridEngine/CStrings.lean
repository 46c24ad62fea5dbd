import Mathlib.Data.List.Basic

/-!
# Strings in a buffer

A buffer is the list of its bytes. A write outside of it has no result, and neither has the search
for a terminating zero that is not there. A buffer holds a text when the text stands at its begin
with a zero behind it; the calls of the C library are described by what the buffer holds.
-/

namespace CStrings

/-- The place of the terminating zero of the string at `dst`. -/
def strEnd (mem : List UInt8) (dst : ℕ) : Option ℕ :=
  ((mem.drop dst).findIdx? fun b => b = 0).map (dst + ·)

/-- Writes `bytes` from the index `i` on. -/
def write (mem : List UInt8) (i : ℕ) (bytes : List UInt8) : Option (List UInt8) :=
  if i + bytes.length ≤ mem.length then
    some (mem.take i ++ bytes ++ mem.drop (i + bytes.length))
  else none

/-- `strcat` to the string at the index `dst`. -/
def strcat (mem : List UInt8) (dst : ℕ) (a : List UInt8) : Option (List UInt8) :=
  (strEnd mem dst).bind fun i => write mem i (a ++ [0])

/-- `strncat` to the string at the index `dst`. -/
def strncat (mem : List UInt8) (dst : ℕ) (a : List UInt8) (n : ℕ) : Option (List UInt8) :=
  (strEnd mem dst).bind fun i => write mem i (a.take n ++ [0])

/-- What a reader finds in the buffer: the bytes in front of the first zero. -/
def contents (mem : List UInt8) : Option (List UInt8) :=
  if 0 ∈ mem then some (mem.takeWhile fun b => b ≠ 0) else none

/-- `text` and its terminating zero are the begin of the buffer. -/
def Holds (mem text : List UInt8) : Prop := 0 ∉ text ∧ ∃ rest, mem = text ++ 0 :: rest

variable {mem text a : List UInt8} {n : ℕ}

theorem write_eq {i : ℕ} {bytes : List UInt8} (h : i + bytes.length ≤ mem.length) :
    write mem i bytes = some (mem.take i ++ bytes ++ mem.drop (i + bytes.length)) := if_pos h

theorem write_length {i : ℕ} {bytes mem' : List UInt8} (h : write mem i bytes = some mem') :
    mem'.length = mem.length := by
  unfold write at h
  split_ifs at h with hfits
  obtain rfl := Option.some.inj h
  simp only [List.length_append, List.length_take, List.length_drop]
  omega

theorem write_eq_none {i : ℕ} {bytes : List UInt8} (h : mem.length < i + bytes.length) :
    write mem i bytes = none := if_neg (Nat.not_le.mpr h)

theorem write_nil {i : ℕ} (h : i ≤ mem.length) : write mem i [] = some mem := by
  rw [write_eq (by simpa using h), List.append_nil, List.length_nil, Nat.add_zero,
    List.take_append_drop]

theorem write_append (i : ℕ) (bytes more : List UInt8) :
    ((write mem i bytes).bind fun mem' => write mem' (i + bytes.length) more) =
      write mem i (bytes ++ more) := by
  have hboth : (bytes ++ more).length = bytes.length + more.length := List.length_append
  by_cases hfits : i + bytes.length ≤ mem.length
  · have hlen := write_length (write_eq hfits)
    rw [write_eq hfits, Option.bind_some]
    have hfront : (mem.take i ++ bytes).length = i + bytes.length := by
      rw [List.length_append, List.length_take_of_le (by omega)]
    by_cases hmore : i + bytes.length + more.length ≤ mem.length
    · rw [write_eq (by omega), write_eq (by omega), hboth, ← hfront, List.take_left,
        List.drop_append, List.drop_eq_nil_of_le (by omega), Nat.add_sub_cancel_left, hfront,
        List.drop_drop, List.nil_append, List.append_assoc _ bytes more, Nat.add_assoc]
    · rw [write_eq_none (by omega), write_eq_none (by omega)]
  · rw [write_eq_none (by omega), write_eq_none (by omega), Option.bind_none]

namespace Holds

theorem contents_eq (h : Holds mem text) : contents mem = some text := by
  obtain ⟨hnul, rest, rfl⟩ := h
  have htake : (text ++ 0 :: rest).takeWhile (fun b => b ≠ 0) = text := by
    rw [List.takeWhile_append_of_pos, List.takeWhile_cons]
    · simp
    · intro b hb
      rw [decide_eq_true_eq]
      rintro rfl
      exact hnul hb
  rw [contents, if_pos (List.mem_append_right _ List.mem_cons_self), htake]

theorem length_lt (h : Holds mem text) : text.length < mem.length := by
  obtain ⟨-, rest, rfl⟩ := h
  rw [List.length_append, List.length_cons]
  omega

theorem strEnd_eq (h : Holds mem text) : strEnd mem text.length = some text.length := by
  obtain ⟨-, rest, rfl⟩ := h
  rw [strEnd, List.drop_left, List.findIdx?_cons]
  simp

theorem write_end (h : Holds mem text) (ha : 0 ∉ a) (hfits : text.length + a.length < mem.length) :
    ∃ mem', write mem text.length (a ++ [0]) = some mem' ∧ Holds mem' (text ++ a) ∧
      mem'.length = mem.length := by
  have hle : text.length + (a ++ [0]).length ≤ mem.length := by
    rw [List.length_append, List.length_singleton]
    omega
  obtain ⟨hnul, rest, rfl⟩ := h
  refine ⟨_, write_eq hle, ⟨?_, ?_⟩, write_length (write_eq hle)⟩
  · rw [List.mem_append]
    exact fun h => h.elim hnul ha
  · refine ⟨(text ++ 0 :: rest).drop (text.length + (a ++ [0]).length), ?_⟩
    rw [List.take_left, List.append_assoc, List.append_assoc, List.append_assoc,
      List.singleton_append]

theorem strncat_spec (h : Holds mem text) (ha : 0 ∉ a)
    (hfits : text.length + (a.take n).length < mem.length) :
    ∃ mem', strncat mem text.length a n = some mem' ∧ Holds mem' (text ++ a.take n) ∧
      mem'.length = mem.length := by
  rw [strncat, h.strEnd_eq, Option.bind_some]
  exact h.write_end (fun hmem => ha (List.mem_of_mem_take hmem)) hfits

theorem strcat_spec (h : Holds mem text) (ha : 0 ∉ a)
    (hfits : text.length + a.length < mem.length) :
    ∃ mem', strcat mem text.length a = some mem' ∧ Holds mem' (text ++ a) ∧
      mem'.length = mem.length := by
  rw [strcat, h.strEnd_eq, Option.bind_some]
  exact h.write_end ha hfits

theorem write_char (h : Holds mem text) {c : UInt8} (hc : c ≠ 0)
    (hfits : text.length + 1 < mem.length) :
    ∃ mem₁ mem₂, write mem text.length [c] = some mem₁ ∧
      write mem₁ (text.length + 1) [0] = some mem₂ ∧ Holds mem₂ (text ++ [c]) ∧
      mem₂.length = mem.length := by
  have hle : text.length + [c].length ≤ mem.length := Nat.le_of_lt hfits
  have hlen := write_length (write_eq hle)
  obtain ⟨hnul, rest, rfl⟩ := h
  refine ⟨_, _, write_eq hle, write_eq (hlen ▸ hfits), ⟨?_, ?_⟩, ?_⟩
  · rw [List.mem_append, List.mem_singleton]
    exact fun h => h.elim hnul hc.symm
  · have hfront : (text ++ [c]).length = text.length + 1 := by
      rw [List.length_append, List.length_singleton]
    rw [List.take_left, ← hfront, List.take_left, List.append_assoc]
    exact ⟨_, rfl⟩
  · rw [write_length (write_eq (hlen ▸ hfits)), hlen]

theorem write_empty (hmem : mem ≠ []) :
    ∃ mem', write mem 0 [0] = some mem' ∧ Holds mem' [] ∧ mem'.length = mem.length := by
  cases mem with
  | nil => exact absurd rfl hmem
  | cons b rest => exact ⟨0 :: rest, by simp [write], ⟨by simp, rest, rfl⟩, rfl⟩

theorem append (h : Holds mem text) (more : List UInt8) : Holds (mem ++ more) text := by
  obtain ⟨hnul, rest, rfl⟩ := h
  exact ⟨hnul, rest ++ more, by rw [List.append_assoc, List.cons_append]⟩

end Holds

end CStrings
