import GridEngine.CullUnpack

/-!
# Decoding any bytes

Whatever the buffer holds, the decoders come to an end. The only reader that may leave the buffer is
`unpackstr`: it looks for the zero byte of the string before it compares with `mem_size`.
-/

namespace GridEngine
open ByteReader ByteReader.Reader

variable {D : Type} {xdr : Xdr D} {ns : Option (List LNameSpace)} {flags : UInt32} {fuel : ℕ}

section Descr

theorem cullUnpackField_bounded : Bounded fuel cullUnpackField := by
  apply unpackint_bounded.bind
  intro nm
  apply unpackint_bounded.bind
  intro mt
  exact Bounded.pure _

theorem cullUnpackDescr_bounded : Bounded fuel (cullUnpackDescr ns) := by
  apply unpackint_bounded.bind
  intro n
  split_ifs
  · exact Bounded.fail _
  · apply (cullUnpackField_bounded.many n.toNat).bind
    intro dp
    exact Bounded.pure _

end Descr

section Elem
variable {unpackSwitch : LType → Unpack (LMultiType D)}

theorem cullUnpackContLoop_bounded (h : ∀ type, Bounded fuel (unpackSwitch type))
    (dp : List LDescr) (state : ContState) :
    Bounded fuel (cullUnpackContLoop xdr unpackSwitch flags dp state) := by
  induction dp generalizing state with
  | nil => exact Bounded.pure _
  | cons field dp ih =>
      unfold cullUnpackContLoop
      by_cases hsel : isSelected flags field.mt
      · rw [if_pos hsel]
        apply (h _).attempt.bind
        intro result
        rcases result with e | value
        · cases e with
          | format => exact (ih _).bind fun _ => Bounded.pure _
          | enomem => exact Bounded.pure _
          | badarg => exact Bounded.pure _
          | version => exact Bounded.pure _
        · exact (ih _).bind fun _ => Bounded.pure _
      · rw [if_neg hsel]
        exact (ih _).bind fun _ => Bounded.pure _

theorem cullUnpackCont_bounded (h : ∀ type, Bounded fuel (unpackSwitch type)) (dp : List LDescr) :
    Bounded fuel (cullUnpackCont xdr unpackSwitch flags dp) := by
  apply (cullUnpackContLoop_bounded h _ _).bind
  intro result
  obtain ⟨cont, state⟩ := result
  by_cases hformat : state.formatError && state.onlyAtBufferend
  · simp only [hformat, if_true]
    exact Bounded.pure _
  · simp only [hformat]
    cases state.lastError with
    | some e => exact Bounded.fail _
    | none =>
        by_cases hend : state.onlyAtBufferend
        · simp only [hend, if_true]
          exact Bounded.pure _
        · simp only [hend]
          exact Bounded.fail _

theorem cullUnpackElemDescr_bounded (status : UInt32) (dp : Option (List LDescr)) :
    Bounded fuel (cullUnpackElemDescr ns status dp) := by
  unfold cullUnpackElemDescr
  by_cases hfree : status = FREE_ELEM
  · rw [if_pos hfree]
    apply cullUnpackDescr_bounded.bind
    intro descr
    cases dp with
    | none => exact Bounded.pure _
    | some dp =>
        simp only
        split_ifs
        · exact Bounded.pure _
        · exact Bounded.pure _
  · rw [if_neg hfree]
    cases dp with
    | none => exact Bounded.fail _
    | some dp => exact Bounded.pure _

/-- The status in front of an element pays for the level of its fields. -/
theorem cullUnpackElemWith_bounded (h : ∀ type, Bounded fuel (unpackSwitch type))
    (dp : Option (List LDescr)) :
    Bounded (fuel + 1) (cullUnpackElemWith xdr ns unpackSwitch flags dp) := by
  apply unpackint_bounded.bind_advances unpackint_advances
  intro status
  apply (cullUnpackElemDescr_bounded status dp).bind
  intro descr
  apply (unpackbitfield_bounded _).bind
  intro changed
  apply (cullUnpackCont_bounded h descr).bind
  intro cont
  exact Bounded.pure _

theorem cullUnpackObjectWith_bounded (h : ∀ type, Bounded fuel (unpackSwitch type)) :
    Bounded (fuel + 1) (cullUnpackObjectWith xdr ns unpackSwitch flags) := by
  apply unpackint_bounded.bind_advances unpackint_advances
  intro i
  split_ifs
  · exact Bounded.pure _
  · apply cullUnpackDescr_bounded.bind
    intro descr
    have helem : Bounded fuel (cullUnpackElemWith xdr ns unpackSwitch flags (some descr)) :=
      (cullUnpackElemWith_bounded h _).anti (Nat.le_succ fuel)
    apply helem.bind
    intro ep
    exact Bounded.pure _

theorem cullUnpackListWith_bounded (h : ∀ type, Bounded fuel (unpackSwitch type)) :
    Bounded (fuel + 1) (cullUnpackListWith xdr ns unpackSwitch flags) := by
  apply unpackint_bounded.bind_advances unpackint_advances
  intro i
  split_ifs
  · exact Bounded.pure _
  · apply unpackint_bounded.bind
    intro n
    apply unpackstr_bounded.bind
    intro listname
    apply unpackint_bounded.bind
    intro changed
    apply cullUnpackDescr_bounded.bind
    intro descr
    have helem : Bounded fuel (cullUnpackElemWith xdr ns unpackSwitch flags (some descr)) :=
      (cullUnpackElemWith_bounded h _).anti (Nat.le_succ fuel)
    apply (helem.many n.toNat).bind
    intro elems
    exact Bounded.pure _

theorem cullUnpackSwitchWith_bounded {unpackList unpackObject : Unpack (LMultiType D)}
    (hlist : Bounded fuel unpackList) (hobject : Bounded fuel unpackObject) (type : LType) :
    Bounded fuel (cullUnpackSwitchWith xdr unpackList unpackObject type) := by
  cases type with
  | lBoolT => exact unpackint_bounded.bind fun _ => Bounded.pure _
  | lUlongT => exact unpackint_bounded.bind fun _ => Bounded.pure _
  | lUlong64T => exact unpackint64_bounded.bind fun _ => Bounded.pure _
  | lStringT => exact unpackstr_bounded.bind fun _ => Bounded.pure _
  | lHostT => exact unpackstr_bounded.bind fun _ => Bounded.pure _
  | lListT => exact hlist
  | lObjectT => exact hobject
  | lDoubleT => exact (unpackdouble_bounded xdr).bind fun _ => Bounded.pure _
  | lRefT => exact Bounded.pure _
  | _ => exact Bounded.fail _

theorem cullUnpackSwitch_bounded (fuel : ℕ) (type : LType) :
    Bounded fuel (cullUnpackSwitch xdr ns flags fuel type) := by
  induction fuel generalizing type with
  | zero => exact cullUnpackSwitchWith_bounded Bounded.outOfFuel Bounded.outOfFuel type
  | succ fuel ih =>
      exact cullUnpackSwitchWith_bounded (cullUnpackListWith_bounded ih)
        (cullUnpackObjectWith_bounded ih) type

end Elem

section Enumeration

theorem cullUnpackEnumField_bounded {unpackEnum : Unpack LEnumeration}
    (h : Bounded fuel unpackEnum) : Bounded fuel (cullUnpackEnumField unpackEnum) := by
  apply unpackint_bounded.bind
  intro pos
  apply unpackint_bounded.bind
  intro mt
  apply unpackint_bounded.bind
  intro nm
  apply unpackint_bounded.bind
  intro temp
  split_ifs
  · exact h.bind fun _ => Bounded.pure _
  · exact (Bounded.pure _).bind fun _ => Bounded.pure _

theorem cullUnpackEnumWith_bounded {unpackEnum : Unpack LEnumeration}
    (h : Bounded fuel unpackEnum) : Bounded (fuel + 1) (cullUnpackEnumWith unpackEnum) := by
  apply unpackint_bounded.bind_advances unpackint_advances
  intro i
  split_ifs
  · exact Bounded.pure _
  · apply unpackint_bounded.bind
    intro flag
    split_ifs
    · exact Bounded.pure _
    · exact Bounded.pure _
    · exact Bounded.pure _
    · apply unpackint_bounded.bind
      intro n
      split_ifs
      · exact Bounded.fail _
      · apply ((cullUnpackEnumField_bounded h).many n.toNat).bind
        intro fields
        exact Bounded.pure _

theorem cullUnpackEnum_bounded (fuel : ℕ) : Bounded fuel (cullUnpackEnum fuel) := by
  induction fuel with
  | zero => exact Bounded.outOfFuel
  | succ fuel ih => exact cullUnpackEnumWith_bounded ih

end Enumeration

section Condition

theorem cullUnpackCondWith_bounded {unpackSwitch : LType → Unpack (LMultiType D)}
    {unpackCond : Unpack (LCondition D)} (hswitch : ∀ type, Bounded fuel (unpackSwitch type))
    (hcond : Bounded fuel unpackCond) :
    Bounded (fuel + 1) (cullUnpackCondWith unpackSwitch unpackCond) := by
  apply unpackint_bounded.bind_advances unpackint_advances
  intro i
  split_ifs
  · exact Bounded.pure _
  · apply unpackint_bounded.bind
    intro op
    split_ifs
    · apply unpackint_bounded.bind
      intro pos
      apply unpackint_bounded.bind
      intro mt
      apply unpackint_bounded.bind
      intro nm
      split_ifs
      · exact (hswitch _).bind fun _ => Bounded.pure _
      · exact hcond.bind fun _ => Bounded.pure _
    · exact hcond.bind fun _ => Bounded.pure _
    · exact hcond.bind fun _ => hcond.bind fun _ => Bounded.pure _
    · exact Bounded.fail _

theorem cullUnpackCond_bounded (fuel : ℕ) : Bounded fuel (cullUnpackCond xdr ns fuel) := by
  induction fuel with
  | zero => exact Bounded.outOfFuel
  | succ fuel ih => exact cullUnpackCondWith_bounded (cullUnpackSwitch_bounded fuel) ih

end Condition

section Messages
variable {α : Type}

/-- Decoding a message: `init_packbuffer_from_buffer`, then one of the decoders. -/
def decode (unpack : Unpack α) (message : List UInt8) : Outcome PackError α × Cursor :=
  (do
    initPackbufferFromBuffer
    unpack : Unpack α) ⟨message, 0, []⟩

/-- The decoder comes to an end on every message, and it stays inside exactly when each string it
comes to ends inside. -/
def InsideIfStringsEnd (unpack : ℕ → Unpack α) : Prop :=
  ∀ message fuel, message.length < fuel →
    (decode (unpack fuel) message).1 ≠ .noFuel ∧
      ((decode (unpack fuel) message).1 ≠ .overrun ↔
        ∀ p ∈ (decode (unpack fuel) message).2.scans, ZeroAhead message p)

theorem insideIfStringsEnd_of_bounded {unpack : ℕ → Unpack α}
    (h : ∀ fuel, Bounded fuel (unpack fuel)) : InsideIfStringsEnd unpack := by
  intro message fuel hfuel
  have hbounded : Bounded fuel (do initPackbufferFromBuffer; unpack fuel) :=
    initPackbufferFromBuffer_bounded.bind fun _ => h fuel
  have hstep := hbounded ⟨message, 0, []⟩ (Nat.zero_le _)
  obtain ⟨new, hnew, hover⟩ := hstep.scans
  rw [List.nil_append] at hnew
  constructor
  · apply hstep.ends
    rwa [Nat.zero_add]
  · have hscans : (decode (unpack fuel) message).2.scans = new := hnew
    rw [hscans]
    constructor
    · intro hinside p hp
      by_contra hbad
      exact hinside (hover.mpr ⟨p, hp, hbad⟩)
    · intro hall heq
      obtain ⟨p, hp, hbad⟩ := hover.mp heq
      exact hbad (hall p hp)

/-- A message that ends where the name of the list should stand. -/
def truncatedList : List UInt8 := packint 0 ++ packint CULL_VERSION ++ packint 1 ++ packint 0

end Messages

end GridEngine
