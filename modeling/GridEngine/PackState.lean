import GridEngine.PackBuffer

/-!
# Pack buffers that grow

The state behind the packing functions: the allocated size, the number of bytes in use, and
whether bytes are written at all or only counted. Allocation succeeds. Before a buffer is written
to it grows by one chunk when the bytes do not fit, and only strings may make it grow by more.
-/

namespace GridEngine

def CHUNK : ℕ := 1024 * 1024
def INTSIZE : ℕ := 4
def DOUBLESIZE : ℕ := 8

/-- A `sge_pack_buffer` that is packed into. `head` are the bytes written behind `head_ptr`. -/
structure SgePackBuffer where
  head : List UInt8
  memSize : ℕ
  bytesUsed : ℕ
  justCount : Bool

namespace SgePackBuffer

section Model
variable {D : Type} (pb : SgePackBuffer)

/-- The reallocation for `n` bytes. -/
def realloc (n : ℕ) : SgePackBuffer :=
  if pb.memSize < pb.bytesUsed + n then { pb with memSize := pb.memSize + CHUNK } else pb

/-- The loop over chunks of `packstr`. -/
def chunkLoop (need memSize : ℕ) : ℕ :=
  if memSize < need then chunkLoop need (memSize + CHUNK) else memSize
termination_by need - memSize
decreasing_by
  unfold CHUNK
  omega

/-- The copy into the buffer, with `cur_ptr` behind the bytes in use. -/
def copy (bytes : List UInt8) : SgePackBuffer :=
  { pb with head := pb.head ++ bytes, bytesUsed := pb.bytesUsed + bytes.length }

/-- The branch for `just_count`. -/
def count (n : ℕ) : SgePackBuffer := { pb with bytesUsed := pb.bytesUsed + n }

def packint (i : UInt32) : SgePackBuffer :=
  if pb.justCount then pb.count INTSIZE else (pb.realloc INTSIZE).copy (GridEngine.packint i)

def packint64 (i : UInt64) : SgePackBuffer :=
  if pb.justCount then pb.count (INTSIZE * 2)
  else (pb.realloc (INTSIZE * 2)).copy (GridEngine.packint64 i)

def packdouble (xdr : Xdr D) (d : D) : SgePackBuffer :=
  if pb.justCount then pb.count DOUBLESIZE
  else (pb.realloc DOUBLESIZE).copy (GridEngine.packdouble xdr d)

def packstr (str : Option CString) : SgePackBuffer :=
  match str with
  | none => if pb.justCount then pb.count 1 else (pb.realloc 1).copy [0]
  | some str =>
      let n := str.chars.length + 1
      if pb.justCount then pb.count n
      else { pb with memSize := chunkLoop (pb.bytesUsed + n) pb.memSize }.copy (str.chars ++ [0])

/-- `packbuf`, which compares the sizes in 32 bits. -/
def packbuf (buffer : List UInt8) : SgePackBuffer :=
  if pb.justCount then pb.count buffer.length
  else if pb.memSize % 2 ^ 32 < (buffer.length + pb.bytesUsed) % 2 ^ 32 then
    { pb with memSize := pb.memSize + CHUNK }.copy buffer
  else pb.copy buffer

def packbitfield (bitfield : Bitfield) : SgePackBuffer :=
  (pb.packint (UInt32.ofNat bitfield.size)).packbuf bitfield.buffer

/-- `init_packbuffer`. -/
def initPackbuffer (initialSize : ℕ) (justCount : Bool) : SgePackBuffer :=
  if justCount then ⟨[], 0, 0, true⟩
  else
    let initialSize := if initialSize = 0 then CHUNK else initialSize + 2 * INTSIZE
    ((⟨[], initialSize, 0, false⟩ : SgePackBuffer).packint 0).packint CULL_VERSION

end Model

/-- A call of one of the packing functions. Sizes are 32 bit numbers. -/
inductive Call (D : Type)
  | packint (i : UInt32)
  | packint64 (i : UInt64)
  | packdouble (d : D)
  | packstr (str : Option CString)
  | packbuf (buffer : List UInt8) (h : buffer.length < 2 ^ 32)
  | packbitfield (bitfield : Bitfield) (h : bitfield.size < 2 ^ 32)

section Calls
variable {D : Type} (xdr : Xdr D)

def call (pb : SgePackBuffer) : Call D → SgePackBuffer
  | .packint i => pb.packint i
  | .packint64 i => pb.packint64 i
  | .packdouble d => pb.packdouble xdr d
  | .packstr str => pb.packstr str
  | .packbuf buffer _ => pb.packbuf buffer
  | .packbitfield bitfield _ => pb.packbitfield bitfield

def callAll (pb : SgePackBuffer) (calls : List (Call D)) : SgePackBuffer :=
  calls.foldl (call xdr) pb

/-- The bytes that a call writes. -/
def Call.bytes : Call D → List UInt8
  | .packint i => GridEngine.packint i
  | .packint64 i => GridEngine.packint64 i
  | .packdouble d => GridEngine.packdouble xdr d
  | .packstr str => GridEngine.packstr str
  | .packbuf buffer _ => GridEngine.packbuf buffer
  | .packbitfield bitfield _ => GridEngine.packbitfield bitfield

end Calls

section Capacity
variable {D : Type} {xdr : Xdr D} {pb : SgePackBuffer}

/-- Everything that was written lies inside of the allocated memory. -/
def Within (pb : SgePackBuffer) : Prop := pb.bytesUsed ≤ pb.memSize

/-- A `packbuf` of `size` bytes fits: there is room, or the comparison sees that there is none and
one chunk is enough. -/
def BufFits (pb : SgePackBuffer) (size : ℕ) : Prop :=
  pb.bytesUsed + size ≤ pb.memSize ∨
    pb.memSize % 2 ^ 32 < (size + pb.bytesUsed) % 2 ^ 32 ∧
      pb.bytesUsed + size ≤ pb.memSize + CHUNK

/-- The condition on a call: only `packbuf` has one, also where `packbitfield` calls it. -/
def Call.Fits (pb : SgePackBuffer) : Call D → Prop
  | .packbuf buffer _ => pb.BufFits buffer.length
  | .packbitfield bitfield _ =>
      (pb.packint (UInt32.ofNat bitfield.size)).BufFits bitfield.buffer.length
  | _ => True

theorem le_chunkLoop (need memSize : ℕ) : need ≤ chunkLoop need memSize := by
  induction memSize using chunkLoop.induct need with
  | case1 memSize hlt ih =>
      rw [chunkLoop, if_pos hlt]
      exact ih
  | case2 memSize hge =>
      rw [chunkLoop, if_neg hge]
      omega

@[simp] theorem copy_justCount (bytes : List UInt8) : (pb.copy bytes).justCount = pb.justCount := rfl

@[simp] theorem realloc_justCount (n : ℕ) : (pb.realloc n).justCount = pb.justCount := by
  unfold realloc
  split_ifs <;> rfl

/-- One chunk is enough for a few bytes. -/
theorem realloc_copy_within {bytes : List UInt8} {n : ℕ} (hpb : pb.Within) (hlen : bytes.length = n)
    (hn : n ≤ CHUNK) : ((pb.realloc n).copy bytes).Within := by
  unfold Within at hpb
  unfold Within copy realloc
  split_ifs with hfull
  · simp only
    omega
  · simp only
    omega

theorem packint_within (i : UInt32) (hpb : pb.Within) (hcount : pb.justCount = false) :
    (pb.packint i).Within := by
  rw [packint, hcount, if_neg Bool.false_ne_true]
  exact realloc_copy_within hpb rfl (by decide)

theorem packstr_within (str : Option CString) (hpb : pb.Within) (hcount : pb.justCount = false) :
    (pb.packstr str).Within := by
  cases str with
  | none =>
      rw [packstr, hcount, if_neg Bool.false_ne_true]
      exact realloc_copy_within hpb rfl (by decide)
  | some str =>
      have hroom := le_chunkLoop (pb.bytesUsed + (str.chars.length + 1)) pb.memSize
      simp only [packstr, hcount, if_neg Bool.false_ne_true, Within, copy, List.length_append,
        List.length_singleton]
      exact hroom

theorem packbuf_within_iff {buffer : List UInt8} (hcount : pb.justCount = false) :
    (pb.packbuf buffer).Within ↔ pb.BufFits buffer.length := by
  rw [packbuf, hcount, if_neg Bool.false_ne_true]
  unfold Within copy BufFits
  split_ifs with hfull
  · simp only
    omega
  · simp only
    omega

/-- A call stays inside of the memory exactly when its `packbuf` fits. -/
theorem call_within_iff (c : Call D) (hpb : pb.Within) (hcount : pb.justCount = false) :
    (call xdr pb c).Within ↔ c.Fits pb := by
  cases c with
  | packint i => exact iff_of_true (packint_within i hpb hcount) trivial
  | packint64 i =>
      refine iff_of_true ?_ trivial
      rw [call, packint64, hcount, if_neg Bool.false_ne_true]
      exact realloc_copy_within hpb rfl (by decide)
  | packdouble d =>
      refine iff_of_true ?_ trivial
      rw [call, packdouble, hcount, if_neg Bool.false_ne_true]
      exact realloc_copy_within hpb (xdr.length_put d) (by decide)
  | packstr str => exact iff_of_true (packstr_within str hpb hcount) trivial
  | packbuf buffer h => exact packbuf_within_iff hcount
  | packbitfield bitfield h =>
      have hcount' : (pb.packint (UInt32.ofNat bitfield.size)).justCount = false := by
        rw [packint, hcount, if_neg Bool.false_ne_true, copy_justCount, realloc_justCount, hcount]
      exact packbuf_within_iff hcount'

end Capacity

section Written
variable {D : Type} {xdr : Xdr D} {pb pb' pb'' : SgePackBuffer} {bytes bytes' : List UInt8}

/-- What packing `bytes` does to a buffer: all of them are counted, and written unless
`just_count` is set. -/
structure Adds (pb pb' : SgePackBuffer) (bytes : List UInt8) : Prop where
  justCount : pb'.justCount = pb.justCount
  bytesUsed : pb'.bytesUsed = pb.bytesUsed + bytes.length
  head : pb'.head = if pb.justCount then pb.head else pb.head ++ bytes

theorem Adds.refl (pb : SgePackBuffer) : Adds pb pb [] := by
  refine ⟨rfl, rfl, ?_⟩
  rw [List.append_nil, ite_self]

theorem Adds.trans (h : Adds pb pb' bytes) (h' : Adds pb' pb'' bytes') :
    Adds pb pb'' (bytes ++ bytes') := by
  refine ⟨h'.justCount.trans h.justCount, ?_, ?_⟩
  · rw [h'.bytesUsed, h.bytesUsed, List.length_append]
    omega
  · rw [h'.head, h.justCount, h.head]
    split_ifs
    · rfl
    · rw [List.append_assoc]

theorem Adds.count {n : ℕ} (hcount : pb.justCount = true) (hlen : bytes.length = n) :
    Adds pb (pb.count n) bytes := by
  refine ⟨rfl, ?_, ?_⟩
  · rw [hlen]
    rfl
  · rw [hcount]
    rfl

theorem Adds.copy (m : ℕ) (hcount : pb.justCount = false) :
    Adds pb ({ pb with memSize := m }.copy bytes) bytes := by
  refine ⟨rfl, rfl, ?_⟩
  rw [hcount]
  rfl

theorem Adds.realloc (n : ℕ) (hcount : pb.justCount = false) :
    Adds pb ((pb.realloc n).copy bytes) bytes := by
  unfold SgePackBuffer.realloc
  split_ifs
  · exact Adds.copy _ hcount
  · exact Adds.copy pb.memSize hcount

theorem adds_packint (i : UInt32) : Adds pb (pb.packint i) (GridEngine.packint i) := by
  unfold packint
  split_ifs with hcount
  · exact Adds.count hcount rfl
  · exact Adds.realloc _ (Bool.eq_false_of_not_eq_true hcount)

theorem adds_packint64 (i : UInt64) : Adds pb (pb.packint64 i) (GridEngine.packint64 i) := by
  unfold packint64
  split_ifs with hcount
  · exact Adds.count hcount rfl
  · exact Adds.realloc _ (Bool.eq_false_of_not_eq_true hcount)

theorem adds_packdouble (d : D) :
    Adds pb (pb.packdouble xdr d) (GridEngine.packdouble xdr d) := by
  unfold packdouble
  split_ifs with hcount
  · exact Adds.count hcount (xdr.length_put d)
  · exact Adds.realloc _ (Bool.eq_false_of_not_eq_true hcount)

theorem adds_packstr (str : Option CString) :
    Adds pb (pb.packstr str) (GridEngine.packstr str) := by
  cases str with
  | none =>
      simp only [packstr]
      split_ifs with hcount
      · exact Adds.count hcount rfl
      · exact Adds.realloc _ (Bool.eq_false_of_not_eq_true hcount)
  | some str =>
      simp only [packstr]
      split_ifs with hcount
      · exact Adds.count hcount (by simp [GridEngine.packstr])
      · exact Adds.copy _ (Bool.eq_false_of_not_eq_true hcount)

theorem adds_packbuf (buffer : List UInt8) :
    Adds pb (pb.packbuf buffer) (GridEngine.packbuf buffer) := by
  unfold packbuf
  split_ifs with hcount
  · exact Adds.count hcount rfl
  · exact Adds.copy _ (Bool.eq_false_of_not_eq_true hcount)
  · exact Adds.copy pb.memSize (Bool.eq_false_of_not_eq_true hcount)

theorem adds_packbitfield (bitfield : Bitfield) :
    Adds pb (pb.packbitfield bitfield) (GridEngine.packbitfield bitfield) :=
  (adds_packint _).trans (adds_packbuf _)

theorem call_adds (c : Call D) : Adds pb (call xdr pb c) (c.bytes xdr) := by
  cases c with
  | packint i => exact adds_packint i
  | packint64 i => exact adds_packint64 i
  | packdouble d => exact adds_packdouble d
  | packstr str => exact adds_packstr str
  | packbuf buffer h => exact adds_packbuf buffer
  | packbitfield bitfield h => exact adds_packbitfield bitfield

theorem initPackbuffer_adds (initialSize : ℕ) :
    Adds ⟨[], if initialSize = 0 then CHUNK else initialSize + 2 * INTSIZE, 0, false⟩
      (initPackbuffer initialSize false)
      (GridEngine.packint 0 ++ GridEngine.packint CULL_VERSION) :=
  (adds_packint 0).trans (adds_packint CULL_VERSION)

end Written

section Runs
variable {D : Type} {xdr : Xdr D} {pb : SgePackBuffer}

theorem initPackbuffer_within (initialSize : ℕ) : (initPackbuffer initialSize false).Within := by
  have hempty : ∀ m, (⟨[], m, 0, false⟩ : SgePackBuffer).Within := fun m => Nat.zero_le m
  apply packint_within
  · exact packint_within 0 (hempty _) rfl
  · exact (adds_packint 0).justCount

theorem forall_prefix_cons {α : Type} {P : List α → Prop} {a : α} {l : List α} :
    (∀ p, p <+: a :: l → P p) ↔ P [] ∧ ∀ p, p <+: l → P (a :: p) := by
  constructor
  · intro h
    exact ⟨h [] List.nil_prefix, fun p hp => h (a :: p) (List.cons_prefix_cons.mpr ⟨rfl, hp⟩)⟩
  · rintro ⟨hnil, hcons⟩ p hp
    cases p with
    | nil => exact hnil
    | cons b p =>
        obtain ⟨rfl, hp'⟩ := List.cons_prefix_cons.mp hp
        exact hcons p hp'

/-- Every call of a run fits into the buffer that it finds. -/
def AllFit (xdr : Xdr D) (pb : SgePackBuffer) (calls : List (Call D)) : Prop :=
  ∀ p c, p ++ [c] <+: calls → c.Fits (callAll xdr pb p)

theorem allFit_cons {c : Call D} {calls : List (Call D)} :
    AllFit xdr pb (c :: calls) ↔ c.Fits pb ∧ AllFit xdr (call xdr pb c) calls := by
  constructor
  · intro h
    refine ⟨h [] c ?_, fun p d hp => h (c :: p) d ?_⟩
    · exact List.cons_prefix_cons.mpr ⟨rfl, List.nil_prefix⟩
    · exact List.cons_prefix_cons.mpr ⟨rfl, hp⟩
  · rintro ⟨hfirst, hrest⟩ p d hp
    cases p with
    | nil =>
        obtain ⟨rfl, -⟩ := List.cons_prefix_cons.mp hp
        exact hfirst
    | cons b p =>
        obtain ⟨rfl, hp'⟩ := List.cons_prefix_cons.mp hp
        exact hrest p d hp'

theorem callAll_within_iff (calls : List (Call D)) (hpb : pb.Within)
    (hcount : pb.justCount = false) :
    (∀ p, p <+: calls → (callAll xdr pb p).Within) ↔ AllFit xdr pb calls := by
  induction calls generalizing pb with
  | nil =>
      refine iff_of_true (fun p hp => ?_) (fun p c hp => ?_)
      · rwa [List.prefix_nil.mp hp]
      · exact absurd (List.prefix_nil.mp hp) (by simp)
  | cons c calls ih =>
      have hcount' : (call xdr pb c).justCount = false := (call_adds c).justCount.trans hcount
      rw [forall_prefix_cons, allFit_cons, ← call_within_iff c hpb hcount]
      constructor
      · rintro ⟨-, hrest⟩
        have hfirst : (call xdr pb c).Within := hrest [] List.nil_prefix
        exact ⟨hfirst, (ih hfirst hcount').mp hrest⟩
      · rintro ⟨hfirst, hrest⟩
        exact ⟨hpb, (ih hfirst hcount').mpr hrest⟩

/-- A run stays inside of the memory exactly when each `packbuf` of it fits. -/
theorem packAll_within_iff (xdr : Xdr D) (initialSize : ℕ) (calls : List (Call D)) :
    (∀ p, p <+: calls → (callAll xdr (initPackbuffer initialSize false) p).Within) ↔
      AllFit xdr (initPackbuffer initialSize false) calls :=
  callAll_within_iff calls (initPackbuffer_within initialSize) (initPackbuffer_adds initialSize).justCount

/-- Two chunks at once: the buffer grows by one of them, and the copy runs over its end. -/
theorem packbuf_overruns :
    ¬(callAll xdrBits (initPackbuffer 0 false)
      [.packbuf (List.replicate (2 * CHUNK) 7) (by rw [List.length_replicate, CHUNK]; omega)]).Within := by
  have hinit : (initPackbuffer 0 false).bytesUsed = 8 ∧ (initPackbuffer 0 false).memSize = CHUNK :=
    by simp [initPackbuffer, packint, realloc, copy, packint_length, CHUNK, INTSIZE]
  have hcount : (initPackbuffer 0 false).justCount = false := (initPackbuffer_adds 0).justCount
  intro hwithin
  rw [callAll, List.foldl_cons, List.foldl_nil, call, packbuf_within_iff hcount] at hwithin
  rw [BufFits, List.length_replicate, hinit.1, hinit.2, CHUNK] at hwithin
  omega

end Runs

end SgePackBuffer

end GridEngine
