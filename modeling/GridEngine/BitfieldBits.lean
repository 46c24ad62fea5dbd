import GridEngine.PackBuffer
import Mathlib.Data.List.GetD
import Mathlib.Order.Nat

/-!
# Bits of bitfields

`sge_bitfield`: up to 64 bits are kept in the structure itself, more in allocated memory. Both are
whole bytes. What a call does is said bit by bit, over all bits of the buffer, so that bits behind
the size are seen as well.
-/

namespace GridEngine

/-- `sizeof(char *) * 8`. -/
def fixedBits : ℕ := 64

/-- A `bitfield`: its size and the bytes of `bf.fix` or `bf.dyn`. -/
structure BitfieldRec where
  size : ℕ
  buffer : List (BitVec 8)
deriving DecidableEq, Repr

namespace BitfieldRec

/-- The number of bytes of the buffer. -/
def room (size : ℕ) : ℕ := if size ≤ fixedBits then 8 else sgeBitfieldGetSizeBytes size

/-- `sge_bitfield_new`. -/
def sgeBitfieldNew (size : ℕ) : BitfieldRec := ⟨size, List.replicate (room size) 0⟩

/-- `sge_bitfield_copy`. Small bitfields are copied with all bytes of the structure. -/
def sgeBitfieldCopy (source target : BitfieldRec) : BitfieldRec :=
  if source.size ≠ target.size then target
  else if source.size ≤ fixedBits then { target with buffer := source.buffer }
  else
    let charSize := sgeBitfieldGetSizeBytes source.size
    { target with buffer := source.buffer.take charSize ++ target.buffer.drop charSize }

/-- `sge_bitfield_bitwise_copy`. -/
def sgeBitfieldBitwiseCopy (source target : BitfieldRec) : BitfieldRec :=
  let charSize :=
    if source.size > target.size then sgeBitfieldGetSizeBytes target.size
    else sgeBitfieldGetSizeBytes source.size
  { target with buffer := source.buffer.take charSize ++ target.buffer.drop charSize }

/-- `sge_bitfield_changed`. -/
def sgeBitfieldChanged (bf : BitfieldRec) : Bool :=
  (bf.buffer.take (sgeBitfieldGetSizeBytes bf.size)).any fun byte => byte ≠ 0

/-- `sge_bitfield_reset`. -/
def sgeBitfieldReset (bf : BitfieldRec) : BitfieldRec :=
  if bf.size > fixedBits then
    let charSize := sgeBitfieldGetSizeBytes bf.size
    { bf with buffer := List.replicate charSize 0 ++ bf.buffer.drop charSize }
  else { bf with buffer := List.replicate 8 0 }

/-- `sge_bitfield_set`. -/
def sgeBitfieldSet (bf : BitfieldRec) (bit : ℕ) : BitfieldRec :=
  if bit ≥ bf.size then bf
  else { bf with buffer := bf.buffer.modify (bit / 8) (· ||| 1 <<< (bit % 8)) }

/-- `sge_bitfield_get`. -/
def sgeBitfieldGet (bf : BitfieldRec) (bit : ℕ) : Bool :=
  bit < bf.size && bf.buffer.getD (bit / 8) 0 &&& 1 <<< (bit % 8) ≠ 0

/-- `sge_bitfield_clear`. -/
def sgeBitfieldClear (bf : BitfieldRec) (bit : ℕ) : BitfieldRec :=
  if bit ≥ bf.size then bf
  else { bf with buffer := bf.buffer.modify (bit / 8) (· &&& (0xFF ^^^ 1 <<< (bit % 8))) }

/-- The bytes of the buffer are there. -/
def Wf (bf : BitfieldRec) : Prop := bf.buffer.length = room bf.size

/-- A bit of the buffer, which may lie behind the size. -/
def bitAt (buffer : List (BitVec 8)) (i : ℕ) : Bool := (buffer.getD (i / 8) 0).getLsbD (i % 8)

section Bits
variable {buffer buffer' : List (BitVec 8)} {bf source target : BitfieldRec} {i bit n size k : ℕ}
  {byte : BitVec 8}

theorem and_shiftLeft_ne_zero (hk : k < 8) : byte &&& 1 <<< k ≠ 0 ↔ byte.getLsbD k = true := by
  change byte &&& BitVec.twoPow 8 k ≠ 0 ↔ _
  rw [BitVec.and_twoPow]
  split_ifs with hbit
  · have hone : BitVec.twoPow 8 k ≠ 0 := by
      intro heq
      have hget := congrArg (fun v => v.getLsbD k) heq
      simp [hk] at hget
    exact iff_of_true hone hbit
  · exact iff_of_false (fun h => h rfl) hbit

theorem or_shiftLeft (hk : k < 8) :
    (byte ||| 1 <<< k).getLsbD i = (byte.getLsbD i || decide (k = i)) := by
  change (byte ||| BitVec.twoPow 8 k).getLsbD i = _
  rw [BitVec.getLsbD_or, BitVec.getLsbD_twoPow, decide_eq_true hk, Bool.true_and]

theorem and_xor_shiftLeft (hk : k < 8) :
    (byte &&& (0xFF ^^^ 1 <<< k)).getLsbD i = (byte.getLsbD i && !decide (k = i)) := by
  change (byte &&& (BitVec.allOnes 8 ^^^ BitVec.twoPow 8 k)).getLsbD i = _
  rw [BitVec.getLsbD_and, BitVec.getLsbD_xor, BitVec.getLsbD_twoPow, BitVec.getLsbD_allOnes]
  by_cases hi : i < 8
  · simp [hi, hk]
  · simp [hi, BitVec.getLsbD_of_ge byte i (by omega)]

theorem mod_lt_byte (bit : ℕ) : bit % 8 < 8 := Nat.mod_lt bit (by decide)

theorem sgeBitfieldGet_eq : bf.sgeBitfieldGet i = (decide (i < bf.size) && bitAt bf.buffer i) := by
  rw [sgeBitfieldGet, bitAt]
  congr 1
  rw [Bool.eq_iff_iff, decide_eq_true_iff, and_shiftLeft_ne_zero (mod_lt_byte i)]

theorem bitAt_replicate : bitAt (List.replicate n 0) i = false := by
  rw [bitAt]
  by_cases hi : i / 8 < n
  · rw [List.getD_replicate _ hi]
    exact BitVec.getLsbD_zero
  · rw [List.getD_eq_default _ _ (by rw [List.length_replicate]; omega)]
    exact BitVec.getLsbD_zero

theorem getElem?_memcpy {j : ℕ} (h : n ≤ buffer.length) :
    (buffer.take n ++ buffer'.drop n)[j]? = if j < n then buffer[j]? else buffer'[j]? := by
  have hlen : (buffer.take n).length = n := List.length_take_of_le h
  rw [List.getElem?_append, hlen, List.getElem?_drop]
  split_ifs with hj
  · rw [List.getElem?_take_of_lt hj]
  · rw [Nat.add_sub_cancel' (Nat.le_of_not_lt hj)]

theorem bitAt_memcpy (h : n ≤ buffer.length) :
    bitAt (buffer.take n ++ buffer'.drop n) i =
      if i / 8 < n then bitAt buffer i else bitAt buffer' i := by
  simp only [bitAt, List.getD_eq_getElem?_getD, getElem?_memcpy h]
  split_ifs <;> rfl

theorem bitAt_modify (f : BitVec 8 → BitVec 8) (h : bit / 8 < buffer.length) :
    bitAt (buffer.modify (bit / 8) f) i =
      if bit / 8 = i / 8 then (f (buffer.getD (i / 8) 0)).getLsbD (i % 8) else bitAt buffer i := by
  rw [bitAt, List.getD_eq_getElem?_getD, List.getElem?_modify]
  split_ifs with heq
  · rw [← heq, List.getD_eq_getElem?_getD, List.getElem?_eq_getElem h]
    rfl
  · rw [bitAt, List.getD_eq_getElem?_getD, Option.map_eq_map, Option.map_id']

theorem room_le (size : ℕ) : sgeBitfieldGetSizeBytes size ≤ room size := by
  rw [room, fixedBits, sgeBitfieldGetSizeBytes]
  split_ifs <;> omega

theorem byte_lt_size (hi : i < size) : i / 8 < sgeBitfieldGetSizeBytes size := by
  rw [sgeBitfieldGetSizeBytes]
  split_ifs <;> omega

theorem sizeBytes_mono (h : n ≤ size) :
    sgeBitfieldGetSizeBytes n ≤ sgeBitfieldGetSizeBytes size := by
  rw [sgeBitfieldGetSizeBytes, sgeBitfieldGetSizeBytes]
  split_ifs <;> omega

theorem Wf.byte_lt (h : bf.Wf) (hi : i < bf.size) : i / 8 < bf.buffer.length := by
  rw [h]
  exact (byte_lt_size hi).trans_le (room_le bf.size)

end Bits

section Calls
variable {bf source target : BitfieldRec} {i bit size : ℕ}

@[simp] theorem size_copy : (sgeBitfieldCopy source target).size = target.size := by
  rw [sgeBitfieldCopy]
  split_ifs <;> rfl

@[simp] theorem size_reset : bf.sgeBitfieldReset.size = bf.size := by
  rw [sgeBitfieldReset]
  split_ifs <;> rfl

@[simp] theorem size_set : (bf.sgeBitfieldSet bit).size = bf.size := by
  rw [sgeBitfieldSet]
  split_ifs <;> rfl

@[simp] theorem size_clear : (bf.sgeBitfieldClear bit).size = bf.size := by
  rw [sgeBitfieldClear]
  split_ifs <;> rfl

theorem bitAt_new : bitAt (sgeBitfieldNew size).buffer i = false := bitAt_replicate

theorem Wf.bitAt_set (h : bf.Wf) (hbit : bit < bf.size) :
    bitAt (bf.sgeBitfieldSet bit).buffer i = (bitAt bf.buffer i || decide (bit = i)) := by
  rw [sgeBitfieldSet, if_neg (Nat.not_le.mpr hbit)]
  rw [bitAt_modify _ (h.byte_lt hbit)]
  split_ifs with hbyte
  · rw [or_shiftLeft (mod_lt_byte bit), bitAt]
    congr 1
    rw [decide_eq_decide]
    omega
  · have hne : bit ≠ i := fun heq => hbyte (by rw [heq])
    simp [hne]

theorem Wf.bitAt_clear (h : bf.Wf) (hbit : bit < bf.size) :
    bitAt (bf.sgeBitfieldClear bit).buffer i = (bitAt bf.buffer i && !decide (bit = i)) := by
  rw [sgeBitfieldClear, if_neg (Nat.not_le.mpr hbit)]
  rw [bitAt_modify _ (h.byte_lt hbit)]
  split_ifs with hbyte
  · rw [and_xor_shiftLeft (mod_lt_byte bit), bitAt]
    congr 2
    rw [decide_eq_decide]
    omega
  · have hne : bit ≠ i := fun heq => hbyte (by rw [heq])
    simp [hne]

theorem Wf.bitAt_reset (h : bf.Wf) : bitAt bf.sgeBitfieldReset.buffer i = false := by
  rw [sgeBitfieldReset]
  split_ifs with hsize
  · have hlen : bf.buffer.length = sgeBitfieldGetSizeBytes bf.size := by
      rw [h, room, if_neg (Nat.not_le.mpr hsize)]
    change bitAt (List.replicate _ 0 ++ bf.buffer.drop (sgeBitfieldGetSizeBytes bf.size)) i = false
    rw [List.drop_eq_nil_of_le hlen.le, List.append_nil]
    exact bitAt_replicate
  · exact bitAt_replicate

theorem Wf.bitAt_copy (hsource : source.Wf) (htarget : target.Wf) (hsize : source.size = target.size) :
    bitAt (sgeBitfieldCopy source target).buffer i = bitAt source.buffer i := by
  rw [sgeBitfieldCopy, if_neg (not_not.mpr hsize)]
  split_ifs with hfixed
  · rfl
  · have hlen : ∀ bf : BitfieldRec, bf.Wf → bf.size = source.size →
        bf.buffer.length = sgeBitfieldGetSizeBytes source.size := by
      intro bf h heq
      rw [h, heq, room, if_neg hfixed]
    change bitAt (source.buffer.take (sgeBitfieldGetSizeBytes source.size) ++
      target.buffer.drop (sgeBitfieldGetSizeBytes source.size)) i = _
    rw [List.take_of_length_le (hlen source hsource rfl).le,
      List.drop_eq_nil_of_le (hlen target htarget hsize.symm).le, List.append_nil]

/-- The bytes that a bitwise copy moves are those of the shorter bitfield. -/
theorem Wf.bitAt_bitwiseCopy (hsource : source.Wf) :
    bitAt (sgeBitfieldBitwiseCopy source target).buffer i =
      if i / 8 < sgeBitfieldGetSizeBytes (min source.size target.size) then bitAt source.buffer i
      else bitAt target.buffer i := by
  have hbytes : (if source.size > target.size then sgeBitfieldGetSizeBytes target.size
      else sgeBitfieldGetSizeBytes source.size) =
        sgeBitfieldGetSizeBytes (min source.size target.size) := by
    split_ifs with hlt
    · rw [min_eq_right hlt.le]
    · rw [min_eq_left (Nat.le_of_not_lt hlt)]
  rw [sgeBitfieldBitwiseCopy, hbytes]
  refine bitAt_memcpy ?_
  rw [hsource]
  exact (sizeBytes_mono (min_le_left _ _)).trans (room_le _)

theorem byte_ne_zero {byte : BitVec 8} : byte ≠ 0 ↔ ∃ k < 8, byte.getLsbD k = true := by
  constructor
  · intro hne
    by_contra hnone
    push Not at hnone
    apply hne
    apply BitVec.eq_of_getLsbD_eq
    intro k hk
    exact (Bool.eq_false_of_not_eq_true (hnone k hk)).trans BitVec.getLsbD_zero.symm
  · rintro ⟨k, -, hbit⟩ rfl
    exact Bool.false_ne_true (BitVec.getLsbD_zero.symm.trans hbit)

theorem Wf.changed_iff (h : bf.Wf) : bf.sgeBitfieldChanged = true ↔
    ∃ i, i / 8 < sgeBitfieldGetSizeBytes bf.size ∧ bitAt bf.buffer i = true := by
  rw [sgeBitfieldChanged, List.any_eq_true]
  constructor
  · rintro ⟨byte, hbyte, hne⟩
    obtain ⟨j, hj, rfl⟩ := List.mem_iff_getElem.mp hbyte
    obtain ⟨k, hk, hbit⟩ := byte_ne_zero.mp (of_decide_eq_true hne)
    rw [List.length_take, lt_inf_iff] at hj
    rw [List.getElem_take] at hbit
    have hdiv : (8 * j + k) / 8 = j := by omega
    have hmod : (8 * j + k) % 8 = k := by omega
    refine ⟨8 * j + k, by rw [hdiv]; exact hj.1, ?_⟩
    rw [bitAt, hdiv, hmod, List.getD_eq_getElem _ _ hj.2]
    exact hbit
  · rintro ⟨i, hi, hbit⟩
    have hlen : i / 8 < bf.buffer.length := by
      rw [h]
      exact hi.trans_le (room_le bf.size)
    have htake : i / 8 < (bf.buffer.take (sgeBitfieldGetSizeBytes bf.size)).length := by
      rw [List.length_take]
      exact lt_min hi hlen
    rw [bitAt, List.getD_eq_getElem _ _ hlen] at hbit
    refine ⟨bf.buffer[i / 8], ?_, decide_eq_true (byte_ne_zero.mpr ⟨_, mod_lt_byte i, hbit⟩)⟩
    exact List.mem_iff_getElem.mpr ⟨i / 8, htake, List.getElem_take⟩

end Calls

end BitfieldRec

end GridEngine
