import GridEngine.ByteReader
import Mathlib.Data.List.TakeWhile
import Mathlib.Data.UInt

/-!
# Pack buffers

The low level functions of the wire format. Packing is modelled by the bytes it appends, unpacking
by a reader of the buffer. XDR, which writes doubles, is a parameter.
-/

namespace GridEngine
open ByteReader ByteReader.Reader

/-- The errors `PACK_*`. -/
inductive PackError
  | enomem | format | badarg | version
deriving DecidableEq, Repr

abbrev Unpack := Reader PackError

/-- A character string, without its end mark. -/
structure CString where
  chars : List UInt8
  noNul : 0 ∉ chars
deriving DecidableEq

def CULL_VERSION : UInt32 := 0x10020000

/-- The doubles in memory and in the XDR format. -/
structure Xdr (D : Type) where
  /-- the double of cleared memory -/
  zero : D
  put : D → List UInt8
  get : List UInt8 → D
  length_put : ∀ d, (put d).length = 8
  get_put : ∀ d, get (put d) = d

/-- A word in network byte order. -/
def htonl (i : UInt32) : List UInt8 :=
  [UInt8.ofNat (i.toNat / 2 ^ 24), UInt8.ofNat (i.toNat / 2 ^ 16), UInt8.ofNat (i.toNat / 2 ^ 8),
    UInt8.ofNat i.toNat]

def ntohl (bytes : List UInt8) : UInt32 :=
  UInt32.ofNat (bytes.foldl (fun i byte => i * 2 ^ 8 + byte.toNat) 0)

section Pack
variable {D : Type}

def packint (i : UInt32) : List UInt8 := htonl i

/-- `packint64`, which passes the word through `htonl`, on a little-endian machine. -/
def packint64 (i : UInt64) : List UInt8 := htonl i.toUInt32 ++ [0, 0, 0, 0]

def packdouble (xdr : Xdr D) (d : D) : List UInt8 := xdr.put d

def packstr : Option CString → List UInt8
  | none => [0]
  | some str => str.chars ++ [0]

def packbuf (buffer : List UInt8) : List UInt8 := buffer

/-- `sge_bitfield_get_size_bytes`. -/
def sgeBitfieldGetSizeBytes (size : ℕ) : ℕ := size / 8 + if size % 8 > 0 then 1 else 0

/-- A `bitfield`. -/
structure Bitfield where
  size : ℕ
  buffer : List UInt8
  length_buffer : buffer.length = sgeBitfieldGetSizeBytes size

/-- `sge_bitfield_init`. -/
def sgeBitfieldInit (size : ℕ) : Bitfield :=
  ⟨size, List.replicate (sgeBitfieldGetSizeBytes size) 0, List.length_replicate⟩

def packbitfield (bitfield : Bitfield) : List UInt8 :=
  packint (UInt32.ofNat bitfield.size) ++ packbuf bitfield.buffer

end Pack

section Unpack
variable {D : Type}

def unpackint : Unpack UInt32 := do
  let bytes ← takeOr .format 4
  pure (ntohl bytes)

def unpackint64 : Unpack UInt64 := do
  let bytes ← takeOr .format 8
  pure (ntohl (bytes.take 4)).toUInt64

def unpackdouble (xdr : Xdr D) : Unpack D := do
  let bytes ← takeOr .format 8
  pure (xdr.get bytes)

/-- The number of characters up to the end mark; `none` when the memory ends before it. -/
def strlen : List UInt8 → Option ℕ
  | [] => none
  | char :: rest => if char = 0 then some 0 else (strlen rest).map (· + 1)

def strdup (mem : List UInt8) : CString :=
  ⟨mem.takeWhile (· ≠ 0), fun h => by simpa using List.mem_takeWhile_imp h⟩

/-- `unpackstr`. It looks at the memory before it compares with `mem_size`. -/
def unpackstr : Unpack (Option CString) := fun c =>
  let c := { c with scans := c.scans ++ [c.pos] }
  match c.mem[c.pos]? with
  | none => (.overrun, c)
  | some first =>
      if first = 0 then
        let c := { c with pos := c.pos + 1 }
        if c.mem.length < c.pos then (.failure .format, c) else (.success none, c)
      else
        match strlen (c.mem.drop c.pos) with
        | none => (.overrun, c)
        | some len =>
            let n := (len + 1) % 2 ^ 32
            if c.mem.length < n + c.pos then (.failure .format, c)
            else (.success (some (strdup (c.mem.drop c.pos))), { c with pos := c.pos + n })

def unpackbuf (size : ℕ) : Unpack (List UInt8) :=
  if size = 0 then pure [] else takeOr .format size

def unpackbitfield (descrSize : ℕ) : Unpack (List UInt8) := do
  let size ← unpackint
  if descrSize < size.toNat then fail .enomem
  else unpackbuf (sgeBitfieldGetSizeBytes size.toNat)

/-- `init_packbuffer_from_buffer`, after which the cursor stands behind the version. -/
def initPackbufferFromBuffer : Unpack Unit := fun c =>
  if 0 < c.mem.length then
    (do
      let pad ← unpackint
      let version ← unpackint
      if pad ≠ 0 ∨ version ≠ CULL_VERSION then fail .version else pure ()) c
  else (.success (), c)

end Unpack

section RoundTrip
variable {D : Type}

theorem ntohl_htonl (i : UInt32) : ntohl (htonl i) = i := by
  apply UInt32.toNat_inj.mp
  have hi : i.toNat < 2 ^ 32 := i.toNat_lt
  simp only [ntohl, htonl, List.foldl_cons, List.foldl_nil, UInt8.toNat_ofNat', UInt32.toNat_ofNat']
  omega

/-- Doubles given by their bits: XDR writes them in network byte order. -/
def xdrBits : Xdr UInt64 where
  zero := 0
  put d := htonl (UInt32.ofNat (d.toNat / 2 ^ 32)) ++ htonl d.toUInt32
  get bytes := UInt64.ofNat ((ntohl (bytes.take 4)).toNat * 2 ^ 32 + (ntohl (bytes.drop 4)).toNat)
  length_put _ := rfl
  get_put d := by
    have hd : d.toNat < 2 ^ 64 := d.toNat_lt
    have htake : ∀ i j : UInt32, (htonl i ++ htonl j).take 4 = htonl i := fun _ _ => rfl
    have hdrop : ∀ i j : UInt32, (htonl i ++ htonl j).drop 4 = htonl j := fun _ _ => rfl
    apply UInt64.toNat_inj.mp
    rw [htake, hdrop, ntohl_htonl, ntohl_htonl, UInt64.toNat_ofNat', UInt32.toNat_ofNat',
      UInt64.toNat_toUInt32]
    omega

theorem packint_length (i : UInt32) : (packint i).length = 4 := rfl

theorem unpackint_reads (i : UInt32) : unpackint.Reads (packint i) i := by
  have h := (Reads.takeOr PackError.format (packint i)).map (g := ntohl)
  rw [packint, ntohl_htonl] at h
  exact h

/-- A number as the other side sees it: both directions convert 32 of its 64 bits. -/
def lowWord (i : UInt64) : UInt64 := i.toUInt32.toUInt64

theorem lowWord_eq_iff {i : UInt64} : lowWord i = i ↔ i.toNat < 2 ^ 32 := by
  rw [← UInt64.toNat_inj, lowWord, UInt32.toNat_toUInt64, UInt64.toNat_toUInt32]
  omega

theorem unpackint64_reads (i : UInt64) : unpackint64.Reads (packint64 i) (lowWord i) := by
  have h := (Reads.takeOr PackError.format (packint64 i)).map
    (g := fun bytes => (ntohl (bytes.take 4)).toUInt64)
  have htake : (packint64 i).take 4 = htonl i.toUInt32 := rfl
  rw [htake, ntohl_htonl] at h
  exact h

theorem unpackdouble_reads (xdr : Xdr D) (d : D) : (unpackdouble xdr).Reads (packdouble xdr d) d := by
  have h := (Reads.takeOr PackError.format (xdr.put d)).map (g := xdr.get)
  rw [xdr.length_put, xdr.get_put] at h
  exact h

theorem strlen_append (str : CString) (rest : List UInt8) :
    strlen (str.chars ++ 0 :: rest) = some str.chars.length := by
  obtain ⟨chars, hchars⟩ := str
  induction chars with
  | nil => rfl
  | cons char chars ih =>
      rw [List.mem_cons, not_or] at hchars
      simp [strlen, Ne.symm hchars.1, ih hchars.2]

theorem strdup_append (str : CString) (rest : List UInt8) : strdup (str.chars ++ 0 :: rest) = str := by
  have htake : (str.chars ++ 0 :: rest).takeWhile (· ≠ 0) = str.chars := by
    rw [List.takeWhile_append_of_pos]
    · simp
    · intro char hchar
      have hne : char ≠ 0 := fun heq => str.noNul (heq ▸ hchar)
      simpa using hne
  simp only [strdup, htake]

/-- The string that arrives: empty strings become `NULL`. -/
def receivedString : Option CString → Option CString
  | none => none
  | some str => if str.chars = [] then none else some str

theorem unpackstr_reads {str : Option CString} (h : (packstr str).length < 2 ^ 32) :
    unpackstr.Reads (packstr str) (receivedString str) := by
  intro before after scans
  refine ⟨scans ++ [before.length], ?_⟩
  have hempty : ∀ str : Option CString, packstr str = [0] → receivedString str = none →
      unpackstr ⟨before ++ packstr str ++ after, before.length, scans⟩ =
        (.success (receivedString str), ⟨before ++ packstr str ++ after,
          (before ++ packstr str).length, scans ++ [before.length]⟩) := by
    intro str hpack hreceived
    rw [hpack, hreceived, unpackstr]
    simp
  cases str with
  | none => exact hempty none rfl rfl
  | some str =>
      by_cases hnil : str.chars = []
      · exact hempty (some str) (by rw [packstr, hnil]; rfl) (by rw [receivedString, if_pos hnil])
      · have hmem : before ++ packstr (some str) ++ after = before ++ (str.chars ++ 0 :: after) := by
          simp [packstr]
        have hfirst : ∃ first, (before ++ packstr (some str) ++ after)[before.length]? = some first ∧
            first ≠ 0 := by
          obtain ⟨char, chars, hchars⟩ := List.exists_cons_of_ne_nil hnil
          have hne : char ≠ 0 := fun heq => str.noNul (by simp [hchars, heq])
          exact ⟨char, by simp [packstr, hchars], hne⟩
        obtain ⟨first, hfirst, hne⟩ := hfirst
        have hdrop : (before ++ packstr (some str) ++ after).drop before.length =
            str.chars ++ 0 :: after := by
          rw [hmem, List.drop_left]
        have hlen : (str.chars.length + 1) % 2 ^ 32 = str.chars.length + 1 := by
          apply Nat.mod_eq_of_lt
          simpa [packstr] using h
        have hroom : ¬ (before ++ packstr (some str) ++ after).length <
            str.chars.length + 1 + before.length := by
          simp only [packstr, List.length_append, List.length_singleton]
          omega
        simp only [unpackstr, hfirst, hne, if_false, hdrop, strlen_append, hlen, strdup_append,
          hroom, receivedString, hnil]
        simp only [packstr, List.length_append, List.length_singleton]

theorem unpackbuf_reads (buffer : List UInt8) :
    (unpackbuf buffer.length).Reads (packbuf buffer) buffer := by
  unfold unpackbuf
  by_cases hnil : buffer = []
  · rw [hnil]
    exact Reads.pure []
  · rw [if_neg (fun h => hnil (List.eq_nil_of_length_eq_zero h))]
    exact Reads.takeOr _ buffer

theorem unpackbitfield_reads {bitfield : Bitfield} {descrSize : ℕ} (h : bitfield.size < 2 ^ 32)
    (hdescr : bitfield.size ≤ descrSize) :
    (unpackbitfield descrSize).Reads (packbitfield bitfield) bitfield.buffer := by
  have hsize : (UInt32.ofNat bitfield.size).toNat = bitfield.size := by
    rw [UInt32.toNat_ofNat', Nat.mod_eq_of_lt h]
  apply (unpackint_reads (UInt32.ofNat bitfield.size)).bind
  rw [hsize, if_neg (Nat.not_lt.mpr hdescr), ← bitfield.length_buffer]
  exact unpackbuf_reads bitfield.buffer

end RoundTrip

section Bounds
variable {D : Type} {fuel : ℕ}

theorem unpackint_bounded : Bounded fuel unpackint :=
  (Bounded.takeOr _ 4).bind fun bytes => Bounded.pure (ntohl bytes)

theorem unpackint_advances : Advances unpackint := (Advances.takeOr _ (by omega)).map

theorem unpackint64_bounded : Bounded fuel unpackint64 :=
  (Bounded.takeOr _ 8).bind fun _ => Bounded.pure _

theorem unpackdouble_bounded (xdr : Xdr D) : Bounded fuel (unpackdouble xdr) :=
  (Bounded.takeOr _ 8).bind fun bytes => Bounded.pure (xdr.get bytes)

theorem unpackbuf_bounded (size : ℕ) : Bounded fuel (unpackbuf size) := by
  unfold unpackbuf
  split_ifs
  · exact Bounded.pure []
  · exact Bounded.takeOr _ size

theorem unpackbitfield_bounded (descrSize : ℕ) : Bounded fuel (unpackbitfield descrSize) := by
  apply unpackint_bounded.bind
  intro size
  split_ifs
  · exact Bounded.fail _
  · exact unpackbuf_bounded _

/-- The scan for the end mark succeeds when there is one, inside of the memory. -/
theorem strlen_eq_none_iff {bytes : List UInt8} : strlen bytes = none ↔ 0 ∉ bytes := by
  induction bytes with
  | nil => simp [strlen]
  | cons byte bytes ih =>
      by_cases hbyte : byte = 0
      · simp [strlen, hbyte]
      · simp [strlen, hbyte, ih, Ne.symm hbyte]

theorem zeroAhead_iff {mem : List UInt8} {p : ℕ} : ZeroAhead mem p ↔ 0 ∈ mem.drop p := by
  rw [List.mem_iff_getElem?]
  simp only [List.getElem?_drop, ZeroAhead]
  constructor
  · intro h
    obtain ⟨i, hpi, hi⟩ := h
    exact ⟨i - p, by rwa [Nat.add_sub_cancel' hpi]⟩
  · intro h
    obtain ⟨i, hi⟩ := h
    exact ⟨p + i, Nat.le_add_right _ _, hi⟩

/-- `unpackstr` leaves the memory exactly when no zero byte follows. -/
theorem unpackstr_bounded : Bounded fuel unpackstr := by
  intro c hc
  have hlogged : ∀ (o : Outcome PackError (Option CString)) (pos : ℕ),
      (o = .overrun ↔ ¬ ZeroAhead c.mem c.pos) → (o ≠ .overrun → c.pos ≤ pos ∧ pos ≤ c.mem.length) →
      o ≠ .noFuel → Step fuel c o { c with pos := pos, scans := c.scans ++ [c.pos] } := by
    intro o pos hover hin hfuel
    exact ⟨rfl, hin, ⟨[c.pos], rfl, by simpa using hover⟩, fun _ => hfuel⟩
  unfold unpackstr
  cases hfirst : c.mem[c.pos]? with
  | none =>
      simp only [hfirst]
      apply hlogged _ c.pos _ (by simp) (by simp)
      have hend : c.mem.length ≤ c.pos := List.getElem?_eq_none_iff.mp hfirst
      rw [zeroAhead_iff, List.drop_eq_nil_of_le hend]
      simp
  | some first =>
      have hlt : c.pos < c.mem.length := by
        by_contra hge
        rw [List.getElem?_eq_none (Nat.not_lt.mp hge)] at hfirst
        cases hfirst
      simp only [hfirst]
      by_cases hzero : first = 0
      · have hahead : ZeroAhead c.mem c.pos := ⟨c.pos, Nat.le_refl _, hzero ▸ hfirst⟩
        rw [if_pos hzero, if_neg (by omega)]
        exact hlogged _ (c.pos + 1) (by simp [hahead]) (fun _ => ⟨Nat.le_add_right _ _, hlt⟩) (by simp)
      · rw [if_neg hzero]
        cases hlen : strlen (c.mem.drop c.pos) with
        | none =>
            rw [strlen_eq_none_iff] at hlen
            exact hlogged _ c.pos (by simp [zeroAhead_iff, hlen]) (by simp) (by simp)
        | some len =>
            have hahead : ZeroAhead c.mem c.pos := by
              rw [zeroAhead_iff]
              by_contra hmem
              rw [strlen_eq_none_iff.mpr hmem] at hlen
              cases hlen
            simp only
            split_ifs with hroom
            · exact hlogged _ c.pos (by simp [hahead]) (fun _ => ⟨Nat.le_refl _, hc⟩) (by simp)
            · exact hlogged _ _ (by simp [hahead]) (fun _ => ⟨by omega, by omega⟩) (by simp)

theorem initPackbufferFromBuffer_bounded : Bounded fuel initPackbufferFromBuffer := by
  intro c hc
  unfold initPackbufferFromBuffer
  split_ifs with hlen
  · have hread : Bounded fuel (do
        let pad ← unpackint
        let version ← unpackint
        if pad ≠ 0 ∨ version ≠ CULL_VERSION then fail PackError.version else pure ()) := by
      apply unpackint_bounded.bind
      intro pad
      apply unpackint_bounded.bind
      intro version
      split_ifs
      · exact Bounded.fail _
      · exact Bounded.pure ()
    exact hread c hc
  · exact Step.stay hc (by simp) (by simp)

end Bounds

end GridEngine
