import GridEngine.BitfieldBits
import GridEngine.Machine

/-!
# Two views of bitfields

`sge_bitfield_get` sees the bits below the size, `sge_bitfield_changed` whole bytes. They agree as
long as no bit behind the size is set, and a bitwise copy between bitfields of different sizes may
carry one there or take bits away from a longer target.
-/

namespace GridEngine
namespace BitfieldRec

/-- No bit behind the size is set. -/
structure Clean (bf : BitfieldRec) : Prop where
  wf : bf.Wf
  behind : ∀ i, bf.size ≤ i → bitAt bf.buffer i = false

/-- After a bitwise copy the target has the bits of the source as far as both reach. -/
def CopiesBits (source target : BitfieldRec) : Prop :=
  ∀ i < target.size, (sgeBitfieldBitwiseCopy source target).sgeBitfieldGet i =
    if i < source.size then source.sgeBitfieldGet i else target.sgeBitfieldGet i

/-- A bitfield is changed when one of its bits is set. -/
def ChangedAgrees (bf : BitfieldRec) : Prop :=
  bf.sgeBitfieldChanged = true ↔ ∃ i < bf.size, bf.sgeBitfieldGet i = true

/-- The longer bitfield has no bit set from the end of the shorter one to the end of its byte. -/
def Fits (source target : BitfieldRec) : Prop :=
  ∀ i, min source.size target.size ≤ i →
    i / 8 < sgeBitfieldGetSizeBytes (min source.size target.size) →
    (if source.size > target.size then source else target).sgeBitfieldGet i = false

section Clean
variable {bf source target : BitfieldRec} {bit size : ℕ}

theorem Clean.new (size : ℕ) : (sgeBitfieldNew size).Clean :=
  ⟨List.length_replicate, fun _ _ => bitAt_new⟩

theorem Clean.get_eq (h : bf.Clean) (i : ℕ) : bf.sgeBitfieldGet i = bitAt bf.buffer i := by
  rw [sgeBitfieldGet_eq]
  by_cases hi : i < bf.size
  · rw [decide_eq_true hi, Bool.true_and]
  · rw [h.behind i (Nat.le_of_not_lt hi), Bool.and_false]

theorem Wf.set (h : bf.Wf) : (bf.sgeBitfieldSet bit).Wf := by
  rw [Wf, size_set, sgeBitfieldSet, ← h]
  split_ifs
  · rfl
  · exact List.length_modify ..

theorem Wf.clear (h : bf.Wf) : (bf.sgeBitfieldClear bit).Wf := by
  rw [Wf, size_clear, sgeBitfieldClear, ← h]
  split_ifs
  · rfl
  · exact List.length_modify ..

theorem Clean.set (h : bf.Clean) : (bf.sgeBitfieldSet bit).Clean := by
  by_cases hbit : bit < bf.size
  · refine ⟨h.wf.set, fun i hi => ?_⟩
    rw [size_set] at hi
    have hne : bit ≠ i := by omega
    rw [h.wf.bitAt_set hbit, h.behind i hi, decide_eq_false hne, Bool.or_false]
  · rw [sgeBitfieldSet, if_pos (Nat.le_of_not_lt hbit)]
    exact h

theorem Clean.clear (h : bf.Clean) : (bf.sgeBitfieldClear bit).Clean := by
  by_cases hbit : bit < bf.size
  · refine ⟨h.wf.clear, fun i hi => ?_⟩
    rw [size_clear] at hi
    rw [h.wf.bitAt_clear hbit, h.behind i hi, Bool.false_and]
  · rw [sgeBitfieldClear, if_pos (Nat.le_of_not_lt hbit)]
    exact h

theorem Clean.reset (h : bf.Clean) : bf.sgeBitfieldReset.Clean := by
  refine ⟨?_, fun i _ => h.wf.bitAt_reset⟩
  have hlen := h.wf
  rw [Wf, room] at hlen
  rw [Wf, size_reset, sgeBitfieldReset, room]
  split_ifs with hlong hfixed hfixed
  · omega
  · rw [if_neg hfixed] at hlen
    simp [hlen]
  · exact List.length_replicate
  · omega

theorem Clean.copy (hsource : source.Clean) (htarget : target.Clean) :
    (sgeBitfieldCopy source target).Clean := by
  by_cases hsize : source.size = target.size
  · refine ⟨?_, fun i hi => ?_⟩
    · have hs := hsource.wf
      have ht := htarget.wf
      rw [Wf] at hs ht
      rw [Wf, size_copy, sgeBitfieldCopy, if_neg (not_not.mpr hsize)]
      split_ifs
      · rw [hs, hsize]
      · simp only [List.length_append, List.length_take, List.length_drop, hs, ht, hsize]
        omega
    · rw [size_copy, ← hsize] at hi
      rw [hsource.wf.bitAt_copy htarget.wf hsize, hsource.behind i hi]
  · rw [sgeBitfieldCopy, if_pos hsize]
    exact htarget

theorem Wf.bitwiseCopy (hsource : source.Wf) (htarget : target.Wf) :
    (sgeBitfieldBitwiseCopy source target).Wf := by
  have hs : sgeBitfieldGetSizeBytes source.size ≤ source.buffer.length := by
    rw [hsource]
    exact room_le _
  have ht : sgeBitfieldGetSizeBytes target.size ≤ target.buffer.length := by
    rw [htarget]
    exact room_le _
  rw [Wf, sgeBitfieldBitwiseCopy, ← htarget]
  simp only [List.length_append, List.length_take, List.length_drop]
  split_ifs with hlong
  · have := sizeBytes_mono hlong.le
    omega
  · have := sizeBytes_mono (Nat.le_of_not_lt hlong)
    omega

theorem Clean.changedAgrees (h : bf.Clean) : bf.ChangedAgrees := by
  rw [ChangedAgrees, h.wf.changed_iff]
  constructor
  · rintro ⟨i, -, hbit⟩
    refine ⟨i, ?_, (h.get_eq i).trans hbit⟩
    by_contra hi
    rw [h.behind i (Nat.le_of_not_lt hi)] at hbit
    cases hbit
  · rintro ⟨i, hi, hbit⟩
    exact ⟨i, byte_lt_size hi, (h.get_eq i).symm.trans hbit⟩

/-- A bitwise copy copies the bits and leaves none behind exactly when the bitfields fit. -/
theorem Clean.bitwiseCopy_iff (hsource : source.Clean) (htarget : target.Clean) :
    CopiesBits source target ∧ (sgeBitfieldBitwiseCopy source target).Clean ↔
      Fits source target := by
  have hbit := fun i => @Wf.bitAt_bitwiseCopy source target i hsource.wf
  constructor
  · rintro ⟨hcopies, hclean⟩ i hi hbyte
    have hbit := hbit i
    rw [if_pos hbyte] at hbit
    split_ifs with hlong
    · rw [min_eq_right hlong.le] at hi
      rw [hsource.get_eq, ← hbit]
      exact hclean.behind i hi
    · rw [min_eq_left (Nat.le_of_not_lt hlong)] at hi
      by_cases hlt : i < target.size
      · have hget := hcopies i hlt
        rw [hclean.get_eq, hbit, hsource.behind i hi, if_neg (Nat.not_lt.mpr hi)] at hget
        exact hget.symm
      · rw [htarget.get_eq, htarget.behind i (Nat.le_of_not_lt hlt)]
  · intro hfits
    have hclean : (sgeBitfieldBitwiseCopy source target).Clean := by
      refine ⟨hsource.wf.bitwiseCopy htarget.wf, fun i hi => ?_⟩
      change target.size ≤ i at hi
      rw [hbit]
      split_ifs with hbyte
      · by_cases hlong : source.size > target.size
        · have hlonger := hfits i ((min_le_right _ _).trans hi) hbyte
          rwa [if_pos hlong, hsource.get_eq] at hlonger
        · exact hsource.behind i ((Nat.le_of_not_lt hlong).trans hi)
      · exact htarget.behind i hi
    refine ⟨fun i hi => ?_, hclean⟩
    rw [hclean.get_eq, hbit, hsource.get_eq, htarget.get_eq]
    by_cases hlt : i < source.size
    · rw [if_pos hlt, if_pos (byte_lt_size (lt_min hlt hi))]
    · have hlong : ¬ source.size > target.size := by omega
      rw [if_neg hlt]
      split_ifs with hbyte
      · have hlonger := hfits i ((min_le_left _ _).trans (Nat.le_of_not_lt hlt)) hbyte
        rw [if_neg hlong, htarget.get_eq] at hlonger
        rw [hlonger, hsource.behind i (Nat.le_of_not_lt hlt)]
      · rfl

end Clean

/-- A call on the bitfields that were created; the number of one that does not exist stands for
`NULL`. -/
inductive Call
  | new (size : ℕ)
  | set (bf bit : ℕ)
  | clear (bf bit : ℕ)
  | reset (bf : ℕ)
  | copy (source target : ℕ)
  | bitwiseCopy (source target : ℕ)

/-- The bitfields after a call. -/
def step (bfs : List BitfieldRec) : Call → List BitfieldRec
  | .new size => bfs ++ [sgeBitfieldNew size]
  | .set bf bit => bfs.modify bf fun bf => bf.sgeBitfieldSet bit
  | .clear bf bit => bfs.modify bf fun bf => bf.sgeBitfieldClear bit
  | .reset bf => bfs.modify bf sgeBitfieldReset
  | .copy source target =>
      match bfs[source]? with
      | some source => bfs.modify target (sgeBitfieldCopy source)
      | none => bfs
  | .bitwiseCopy source target =>
      match bfs[source]? with
      | some source => bfs.modify target (sgeBitfieldBitwiseCopy source)
      | none => bfs

def run (calls : List Call) : List BitfieldRec := calls.foldl step []

/-- The call copies what it should, and both views agree of every bitfield after it. -/
def AgreesAt (bfs : List BitfieldRec) (call : Call) : Prop :=
  (∀ s t source target, call = .bitwiseCopy s t → bfs[s]? = some source → bfs[t]? = some target →
    CopiesBits source target) ∧
  ∀ bf ∈ step bfs call, bf.ChangedAgrees

/-- The views agree along a sequence of calls. -/
def ViewsAgree (calls : List Call) : Prop :=
  ∀ earlier call, earlier ++ [call] <+: calls → AgreesAt (run earlier) call

/-- The bitfields of a bitwise copy fit. -/
def FitsAt (bfs : List BitfieldRec) (call : Call) : Prop :=
  ∀ s t source target, call = .bitwiseCopy s t → bfs[s]? = some source → bfs[t]? = some target →
    Fits source target

section Runs
variable {bfs : List BitfieldRec} {call : Call} {calls earlier : List Call} {bf : BitfieldRec}
  {t : ℕ}

theorem forall_mem_modify {P : BitfieldRec → Prop} {f : BitfieldRec → BitfieldRec}
    (h : ∀ bf ∈ bfs, P bf) (hf : ∀ bf, bfs[t]? = some bf → P (f bf)) :
    ∀ bf ∈ bfs.modify t f, P bf := by
  intro bf hbf
  obtain ⟨i, hi⟩ := List.mem_iff_getElem?.mp hbf
  rw [List.getElem?_modify, Option.map_eq_map, Option.map_eq_some_iff] at hi
  obtain ⟨bf', hbf', rfl⟩ := hi
  split_ifs with heq
  · exact hf bf' (heq ▸ hbf')
  · exact h bf' (List.mem_of_getElem? hbf')

theorem step_concat : run (calls ++ [call]) = step (run calls) call := List.foldl_concat ..

/-- Calls whose bitwise copies fit keep the bits behind the sizes clear. -/
theorem clean_step (h : ∀ bf ∈ bfs, bf.Clean) (hfits : FitsAt bfs call) :
    ∀ bf ∈ step bfs call, bf.Clean := by
  cases call with
  | new size =>
      intro bf hbf
      rcases List.mem_append.mp hbf with hbf | hbf
      · exact h bf hbf
      · rw [List.mem_singleton.mp hbf]
        exact .new size
  | set t bit => exact forall_mem_modify h fun bf hbf => (h bf (List.mem_of_getElem? hbf)).set
  | clear t bit => exact forall_mem_modify h fun bf hbf => (h bf (List.mem_of_getElem? hbf)).clear
  | reset t => exact forall_mem_modify h fun bf hbf => (h bf (List.mem_of_getElem? hbf)).reset
  | copy s t =>
      rw [step]
      cases hs : bfs[s]? with
      | none => exact h
      | some source =>
          exact forall_mem_modify h fun bf hbf =>
            (h source (List.mem_of_getElem? hs)).copy (h bf (List.mem_of_getElem? hbf))
  | bitwiseCopy s t =>
      rw [step]
      cases hs : bfs[s]? with
      | none => exact h
      | some source =>
          exact forall_mem_modify h fun bf hbf =>
            ((h source (List.mem_of_getElem? hs)).bitwiseCopy_iff (h bf (List.mem_of_getElem? hbf))
              |>.mpr (hfits s t source bf rfl hs hbf)).2

theorem agreesAt_of_fits (h : ∀ bf ∈ bfs, bf.Clean) (hfits : FitsAt bfs call) :
    AgreesAt bfs call := by
  refine ⟨fun s t source target hcall hs ht => ?_, fun bf hbf => ?_⟩
  · exact ((h source (List.mem_of_getElem? hs)).bitwiseCopy_iff (h target (List.mem_of_getElem? ht))
      |>.mpr (hfits s t source target hcall hs ht)).1
  · exact (clean_step h hfits bf hbf).changedAgrees

theorem clean_run (hfits : ∀ earlier call, earlier ++ [call] <+: calls → FitsAt (run earlier) call) :
    ∀ bf ∈ run calls, bf.Clean := by
  induction calls using List.reverseRecOn with
  | nil => simp [run]
  | append_singleton calls call ih =>
      rw [CallPrefixes.along_concat] at hfits
      rw [step_concat]
      exact clean_step (ih hfits.1) hfits.2

theorem viewsAgree_of_fits
    (hfits : ∀ earlier call, earlier ++ [call] <+: calls → FitsAt (run earlier) call) :
    ViewsAgree calls := by
  induction calls using List.reverseRecOn with
  | nil => exact CallPrefixes.along_nil
  | append_singleton calls call ih =>
      rw [CallPrefixes.along_concat] at hfits
      rw [ViewsAgree, CallPrefixes.along_concat]
      exact ⟨ih hfits.1, agreesAt_of_fits (clean_run hfits.1) hfits.2⟩

/-- The calls that clear bits of one bitfield. -/
def clearCalls (t : ℕ) (bits : List ℕ) : List Call := bits.map (.clear t)

theorem clear_bits (h : bf.Wf) (bits : List ℕ) (hbits : ∀ bit ∈ bits, bit < bf.size) :
    (bits.foldl sgeBitfieldClear bf).Wf ∧ (bits.foldl sgeBitfieldClear bf).size = bf.size ∧
      ∀ i, bitAt (bits.foldl sgeBitfieldClear bf).buffer i =
        (bitAt bf.buffer i && !decide (i ∈ bits)) := by
  induction bits generalizing bf with
  | nil => exact ⟨h, rfl, fun i => by simp⟩
  | cons bit bits ih =>
      obtain ⟨hbit, hbits⟩ := List.forall_mem_cons.mp hbits
      obtain ⟨hwf, hsize, hat⟩ := @ih (bf.sgeBitfieldClear bit) h.clear
        (by rw [size_clear]; exact hbits)
      rw [List.foldl_cons]
      refine ⟨hwf, hsize.trans size_clear, fun i => ?_⟩
      rw [hat, h.bitAt_clear hbit]
      by_cases hi : i = bit
      · simp [hi]
      · simp [hi, Ne.symm hi]

theorem foldl_clearCalls (bits : List ℕ) (hbf : bfs[t]? = some bf) :
    ((clearCalls t bits).foldl step bfs)[t]? = some (bits.foldl sgeBitfieldClear bf) := by
  induction bits generalizing bfs bf with
  | nil => exact hbf
  | cons bit bits ih =>
      rw [clearCalls, List.map_cons, List.foldl_cons, List.foldl_cons]
      apply ih
      rw [step, List.getElem?_modify, hbf]
      simp

theorem ViewsAgree.changed (h : ViewsAgree (earlier ++ [call] ++ calls)) :
    ∀ bf ∈ run (earlier ++ [call] ++ calls), bf.ChangedAgrees := by
  rcases List.eq_nil_or_concat calls with rfl | ⟨calls, last, rfl⟩
  · rw [List.append_nil] at h ⊢
    rw [step_concat]
    exact (h earlier call (List.prefix_refl _)).2
  · rw [List.concat_eq_append, ← List.append_assoc] at h ⊢
    rw [step_concat]
    exact (h _ last (List.prefix_refl _)).2

/-- When all bits below the size are cleared, what still shows a change is behind it. -/
theorem clean_of_cleared (h : bf.Wf)
    (hagrees : ((List.range bf.size).foldl sgeBitfieldClear bf).ChangedAgrees)
    (hbehind : ∀ i, bitAt bf.buffer i = true → i / 8 < sgeBitfieldGetSizeBytes bf.size) :
    bf.Clean := by
  obtain ⟨hwf, hsize, hat⟩ := clear_bits h (List.range bf.size) fun bit hbit =>
    List.mem_range.mp hbit
  refine ⟨h, fun i hi => ?_⟩
  by_contra hbit
  rw [Bool.not_eq_false] at hbit
  have hi' : bitAt ((List.range bf.size).foldl sgeBitfieldClear bf).buffer i = true := by
    have hnot : i ∉ List.range bf.size := by
      rw [List.mem_range]
      exact Nat.not_lt.mpr hi
    rw [hat, hbit, decide_eq_false hnot]
    rfl
  obtain ⟨j, hj, hget⟩ := hagrees.mp (hwf.changed_iff.mpr ⟨i, by rw [hsize]; exact hbehind i hbit, hi'⟩)
  rw [sgeBitfieldGet_eq, hat, decide_eq_true (List.mem_range.mpr (hsize ▸ hj))] at hget
  simp at hget

theorem step_bitwiseCopy {s : ℕ} {source target : BitfieldRec} (hs : bfs[s]? = some source)
    (ht : bfs[t]? = some target) :
    (step bfs (.bitwiseCopy s t))[t]? = some (sgeBitfieldBitwiseCopy source target) := by
  simp only [step, hs, List.getElem?_modify, ht]
  rfl

/-- A bitwise copy after which the views agree whatever is cleared fits. -/
theorem fits_of_agree (hclean : ∀ bf ∈ run calls, bf.Clean)
    (hagree : ∀ t bits, ViewsAgree (calls ++ [call] ++ clearCalls t bits)) :
    FitsAt (run calls) call := by
  intro s t source target hcall hs ht
  have hsource := hclean source (List.mem_of_getElem? hs)
  have htarget := hclean target (List.mem_of_getElem? ht)
  rw [← hsource.bitwiseCopy_iff htarget]
  refine ⟨?_, ?_⟩
  · have hcopies := hagree 0 []
    rw [clearCalls, List.map_nil, List.append_nil] at hcopies
    exact (hcopies calls call (List.prefix_refl _)).1 s t source target hcall hs ht
  · subst hcall
    refine clean_of_cleared (hsource.wf.bitwiseCopy htarget.wf) ?_ fun i hbit => ?_
    · refine (hagree t (List.range target.size)).changed _ (List.mem_of_getElem? (i := t) ?_)
      rw [run, List.foldl_append, ← run, step_concat]
      exact foldl_clearCalls _ (step_bitwiseCopy hs ht)
    · rw [hsource.wf.bitAt_bitwiseCopy] at hbit
      split_ifs at hbit with hbyte
      · exact hbyte.trans_le (sizeBytes_mono (min_le_right _ _))
      · apply byte_lt_size
        by_contra hi
        rw [htarget.behind i (Nat.le_of_not_lt hi)] at hbit
        cases hbit

/-- The views agree whatever is cleared after any part of the calls exactly when the bitfields of
every bitwise copy fit. -/
theorem viewsAgree_iff (calls : List Call) :
    (∀ earlier, earlier <+: calls → ∀ t bits, ViewsAgree (earlier ++ clearCalls t bits)) ↔
      ∀ earlier call, earlier ++ [call] <+: calls → FitsAt (run earlier) call := by
  constructor
  · intro hagree
    induction calls using List.reverseRecOn with
    | nil => exact CallPrefixes.along_nil
    | append_singleton calls call ih =>
        rw [CallPrefixes.along_concat]
        have hfits := ih fun earlier hbegin =>
          hagree earlier (hbegin.trans (List.prefix_append calls [call]))
        exact ⟨hfits, fits_of_agree (clean_run hfits) (hagree _ (List.prefix_refl _))⟩
  · intro hfits earlier hbegin t bits
    apply viewsAgree_of_fits
    apply CallPrefixes.along_append
    · exact fun earlier' call hbegin' => hfits earlier' call (hbegin'.trans hbegin)
    · intro earlier' call hbegin' s t' source target hcall
      have hmem : call ∈ clearCalls t bits :=
        hbegin'.subset (List.mem_append_right _ (List.mem_singleton_self call))
      obtain ⟨bit, -, rfl⟩ := List.mem_map.mp hmem
      cases hcall

/-- Bit 5 of a byte arrives behind the size 4 of the target, where only one view sees it. -/
theorem copyToShorter_disagrees : ¬ ViewsAgree [.new 8, .new 4, .set 0 5, .bitwiseCopy 0 1] := by
  intro hagree
  have hchanged := (hagree [.new 8, .new 4, .set 0 5] (.bitwiseCopy 0 1) (List.prefix_refl _)).2
    ⟨4, [0x20, 0, 0, 0, 0, 0, 0, 0]⟩ (by decide)
  obtain ⟨i, hi, hget⟩ := hchanged.mp (by decide)
  revert i
  decide

end Runs

end BitfieldRec

end GridEngine
