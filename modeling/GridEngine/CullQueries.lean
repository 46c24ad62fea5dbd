import GridEngine.CullRoundTrip

/-!
# The round trip of enumerations and conditions

What `cull_pack_enum` and `cull_pack_cond` write is what `cull_unpack_enum` and `cull_unpack_cond`
read. Both are recursive: the fields of an enumeration may have enumerations for their sublists,
and the operands of a condition are conditions.
-/

namespace GridEngine
open ByteReader.Reader

section Enumeration

/-- `WHAT_ALL`, as it is packed. -/
def whatAll : UInt32 := 0xFFFFFFFF

/-- `WHAT_NONE`, as it is packed. -/
def whatNone : UInt32 := 0xFFFFFFFE

/-- The number of fields that `cull_pack_enum` writes in front of them. -/
def enumCount (fields : List (UInt32 × UInt32 × UInt32 × LEnumeration)) : ℕ :=
  (fields.takeWhile fun field => field.2.2.1 ≠ NoName).length

/-- The position in the first field; it is 0 in the end mark. -/
def enumFirstPos (fields : List (UInt32 × UInt32 × UInt32 × LEnumeration)) : UInt32 :=
  (fields.head?.map Prod.fst).getD 0

mutual

/-- `cull_pack_enum`. The position that is left unset is taken as 0; its field is `{-99, -99}`. -/
def cullPackEnum : LEnumeration → List UInt8
  | .null => packint 0
  | .all => packint 1 ++ packint PackWhatAll
  | .none => packint 1 ++ packint PackWhatNone
  | .unset =>
      packint 1 ++ (packint PackWhatArray ++
        (packint 1 ++ (packint 0 ++ (packint (0 - 99) ++ (packint (0 - 99) ++ packint 0)))))
  | .array fields =>
      if enumFirstPos fields = whatAll then packint 1 ++ packint PackWhatAll
      else if enumFirstPos fields = whatNone then packint 1 ++ packint PackWhatNone
      else
        packint 1 ++ (packint PackWhatArray ++
          (packint (UInt32.ofNat (enumCount fields)) ++ packEnumFields fields))

/-- The loop over the fields, which ends at the type `lEndT`. -/
def packEnumFields : List (UInt32 × UInt32 × UInt32 × LEnumeration) → List UInt8
  | [] => []
  | (pos, mt, nm, ep) :: fields =>
      if mtGetType mt ≠ .lEndT then
        packint pos ++ (packint mt ++ (packint nm ++
          match ep with
          | .null => packint 0
          | ep => packint 1 ++ cullPackEnum ep)) ++ packEnumFields fields
      else []

end

mutual

/-- The nesting of an enumeration. -/
def LEnumeration.depth : LEnumeration → ℕ
  | .array fields => enumFieldsDepth fields + 1
  | _ => 0

def enumFieldsDepth : List (UInt32 × UInt32 × UInt32 × LEnumeration) → ℕ
  | [] => 0
  | (_, _, _, ep) :: fields => max ep.depth (enumFieldsDepth fields)

end

/-- An enumeration as the source builds it: no field is an end mark or says that the array stands
for all fields or for none. -/
inductive LEnumeration.Ok : LEnumeration → Prop
  | null : LEnumeration.null.Ok
  | all : LEnumeration.all.Ok
  | none : LEnumeration.none.Ok
  | array (fields : List (UInt32 × UInt32 × UInt32 × LEnumeration))
      (size : fields.length < MAX_DESCR_SIZE)
      (first : enumFirstPos fields ≠ whatAll ∧ enumFirstPos fields ≠ whatNone)
      (types : ∀ field ∈ fields, mtGetType field.2.1 ≠ .lEndT)
      (names : ∀ field ∈ fields, field.2.2.1 ≠ NoName)
      (subs : ∀ field ∈ fields, field.2.2.2.Ok) : (LEnumeration.array fields).Ok

variable {fields : List (UInt32 × UInt32 × UInt32 × LEnumeration)}
  {field : UInt32 × UInt32 × UInt32 × LEnumeration} {fuel : ℕ}

/-- The bytes of one field. -/
def packEnumField (field : UInt32 × UInt32 × UInt32 × LEnumeration) : List UInt8 :=
  packint field.1 ++ (packint field.2.1 ++ (packint field.2.2.1 ++
    match field.2.2.2 with
    | .null => packint 0
    | ep => packint 1 ++ cullPackEnum ep))

theorem packEnumFields_eq (htypes : ∀ field ∈ fields, mtGetType field.2.1 ≠ .lEndT) :
    packEnumFields fields = fields.flatMap packEnumField := by
  induction fields with
  | nil => simp only [packEnumFields, List.flatMap_nil]
  | cons field fields ih =>
      obtain ⟨pos, mt, nm, ep⟩ := field
      have hmt : mtGetType mt ≠ .lEndT := htypes _ List.mem_cons_self
      rw [List.flatMap_cons, ← ih fun field hfield => htypes field (List.mem_cons_of_mem _ hfield)]
      cases ep <;> simp only [packEnumFields, hmt, ne_eq, not_false_eq_true, if_true, packEnumField]

theorem depth_le_of_mem (hmem : field ∈ fields) : field.2.2.2.depth ≤ enumFieldsDepth fields := by
  induction fields with
  | nil => cases hmem
  | cons head fields ih =>
      obtain ⟨pos, mt, nm, ep⟩ := head
      rw [enumFieldsDepth]
      rcases List.mem_cons.mp hmem with rfl | hmem
      · exact le_max_left _ _
      · exact (ih hmem).trans (le_max_right _ _)

theorem cullUnpackEnumField_reads {unpackEnum : Unpack LEnumeration}
    (h : field.2.2.2 ≠ .null → unpackEnum.Reads (cullPackEnum field.2.2.2) field.2.2.2) :
    (cullUnpackEnumField unpackEnum).Reads (packEnumField field) field := by
  obtain ⟨pos, mt, nm, ep⟩ := field
  unfold cullUnpackEnumField packEnumField
  apply (unpackint_reads pos).bind
  apply (unpackint_reads mt).bind
  apply (unpackint_reads nm).bind
  cases ep with
  | null =>
      apply (unpackint_reads 0).bind_nil
      exact Reads.pure _
  | _ =>
      apply (unpackint_reads 1).bind
      exact (h (by simp)).map

theorem cullUnpackEnum_reads (e : LEnumeration) (hok : e.Ok) (hdepth : e.depth < fuel) :
    (cullUnpackEnum fuel).Reads (cullPackEnum e) e := by
  induction fuel generalizing e with
  | zero => exact absurd hdepth (Nat.not_lt_zero _)
  | succ fuel ih =>
      rw [cullUnpackEnum]
      unfold cullUnpackEnumWith
      cases hok with
      | null =>
          rw [cullPackEnum]
          exact (unpackint_reads 0).bind_nil (Reads.pure _)
      | all =>
          rw [cullPackEnum]
          apply (unpackint_reads 1).bind
          exact (unpackint_reads PackWhatAll).bind_nil (Reads.pure _)
      | none =>
          rw [cullPackEnum]
          apply (unpackint_reads 1).bind
          exact (unpackint_reads PackWhatNone).bind_nil (Reads.pure _)
      | array fields size first types names subs =>
          have hcount : enumCount fields = fields.length := by
            rw [enumCount, List.takeWhile_eq_self_iff.mpr]
            intro field hfield
            exact decide_eq_true (names field hfield)
          have hsize : fields.length < 200 := size
          have hn : (UInt32.ofNat fields.length).toNat = fields.length :=
            toNat_ofNat_of_lt (by omega)
          rw [LEnumeration.depth] at hdepth
          rw [cullPackEnum, if_neg first.1, if_neg first.2, hcount, packEnumFields_eq types]
          apply (unpackint_reads 1).bind
          apply (unpackint_reads PackWhatArray).bind
          apply (unpackint_reads _).bind
          rw [hn, if_neg]
          · have hmany : (many (cullUnpackEnumField (cullUnpackEnum fuel)) fields.length).Reads
                (fields.flatMap packEnumField) (fields.map fun field => field) := by
              apply Reads.many
              intro field hfield
              apply cullUnpackEnumField_reads
              intro _
              exact ih _ (subs field hfield) (lt_of_le_of_lt (depth_le_of_mem hfield) (by omega))
            rw [List.map_id'] at hmany
            exact hmany.map
          · rw [UInt32.toNat_add, hn]
            simp only [MAX_DESCR_SIZE, UInt32.reduceToNat]
            omega

end Enumeration

section Condition
variable {D : Type}

/-- `cull_pack_cond`. The type of a comparison selects the member of the union; where the operand
is another one the result is `PACK_BADARG`, which the source has not. -/
def cullPackCond (xdr : Xdr D) : LCondition D → Except PackError (List UInt8)
  | .null => .ok (packint 0)
  | .cmp op pos mt nm val =>
      if isComparison op then
        if mtGetType mt ≠ .lListT then do
          let bytes ← cullPackSwitch xdr 0 (mtGetType mt) val
          .ok (packint 1 ++ (packint op ++ (packint pos ++ (packint mt ++ (packint nm ++ bytes)))))
        else .error .badarg
      else .error .format
  | .sub op pos mt nm cp =>
      if isComparison op then
        if mtGetType mt ≠ .lListT then .error .badarg
        else do
          let bytes ← cullPackCond xdr cp
          .ok (packint 1 ++ (packint op ++ (packint pos ++ (packint mt ++ (packint nm ++ bytes)))))
      else .error .format
  | .neg first => do
      let bytes ← cullPackCond xdr first
      .ok (packint 1 ++ (packint NEG_OP ++ bytes))
  | .log op first second =>
      if op = AND_OP ∨ op = OR_OP then do
        let bytes ← cullPackCond xdr first
        let rest ← cullPackCond xdr second
        .ok (packint 1 ++ (packint op ++ (bytes ++ rest)))
      else .error .format

/-- The nesting of a condition. -/
def LCondition.depth : LCondition D → ℕ
  | .null => 0
  | .cmp _ _ _ _ _ => 0
  | .sub _ _ _ _ cp => cp.depth + 1
  | .neg first => first.depth + 1
  | .log _ first second => max first.depth second.depth + 1

/-- The operand of a comparison has the type that the comparison names. -/
def IsOperand : LType → LMultiType D → Prop
  | .lBoolT, .b _ => True
  | .lUlongT, .ul _ => True
  | .lDoubleT, .db _ => True
  | .lStringT, .str _ => True
  | .lHostT, .host _ => True
  | _, _ => False

/-- A tree of comparisons, sub-conditions, negations, conjunctions and disjunctions. -/
def LCondition.Ok : LCondition D → Prop
  | .null => True
  | .cmp op _ mt _ val => isComparison op ∧ IsOperand (mtGetType mt) val
  | .sub op _ mt _ cp => isComparison op ∧ mtGetType mt = .lListT ∧ cp.Ok
  | .neg first => first.Ok
  | .log op first second => (op = AND_OP ∨ op = OR_OP) ∧ first.Ok ∧ second.Ok

/-- The operand that arrives: empty strings become `NULL`. -/
def receivedOperand : LMultiType D → LMultiType D
  | .str value => .str (receivedString value)
  | .host value => .host (receivedString value)
  | value => value

/-- The condition that arrives. -/
def receivedCond : LCondition D → LCondition D
  | .null => .null
  | .cmp op pos mt nm val => .cmp op pos mt nm (receivedOperand val)
  | .sub op pos mt nm cp => .sub op pos mt nm (receivedCond cp)
  | .neg first => .neg (receivedCond first)
  | .log op first second => .log op (receivedCond first) (receivedCond second)

variable {xdr : Xdr D} {ns : Option (List LNameSpace)} {fuel : ℕ}

theorem cullUnpackOperand_travels {type : LType} {val : LMultiType D} (h : IsOperand type val) :
    type ≠ .lListT ∧ Travels (cullPackSwitch xdr 0 type val)
      (cullUnpackSwitch xdr ns 0 fuel type) (receivedOperand val) := by
  have hfits : val.WideFits type ∧ val.IsScalar ∧ type ≠ .lListT ∧
      arrived xdr ns 0 val = receivedOperand val := by
    cases val <;> cases type <;>
      simp_all [IsOperand, LMultiType.WideFits, LMultiType.IsScalar, arrived, receivedOperand]
  obtain ⟨hfits, hscalar, hlist, harrived⟩ := hfits
  rw [← harrived]
  refine ⟨hlist, ?_⟩
  cases fuel with
  | zero => exact cullUnpackScalar_travels hfits hscalar
  | succ fuel => exact cullUnpackScalar_travels hfits hscalar

theorem cullUnpackCond_travels (c : LCondition D) (hok : c.Ok) (hdepth : c.depth < fuel) :
    Travels (cullPackCond xdr c) (cullUnpackCond xdr ns fuel) (receivedCond c) := by
  induction fuel generalizing c with
  | zero => exact absurd hdepth (Nat.not_lt_zero _)
  | succ fuel ih =>
      rw [cullUnpackCond]
      unfold cullUnpackCondWith
      cases c with
      | null => exact ⟨packint 0, rfl, fun _ => (unpackint_reads 0).bind_nil (Reads.pure _)⟩
      | cmp op pos mt nm val =>
          obtain ⟨hop, hval⟩ := hok
          obtain ⟨hlist, bytes, hbytes, hreads⟩ := @cullUnpackOperand_travels D xdr ns fuel _ _ hval
          refine ⟨_, by rw [cullPackCond, if_pos hop, if_pos hlist, hbytes]; rfl, fun hlen => ?_⟩
          simp only [List.length_append] at hlen
          apply (unpackint_reads 1).bind
          apply (unpackint_reads op).bind
          rw [if_pos hop]
          apply (unpackint_reads pos).bind
          apply (unpackint_reads mt).bind
          apply (unpackint_reads nm).bind
          rw [if_pos hlist]
          exact (hreads (by omega)).map
      | sub op pos mt nm cp =>
          obtain ⟨hop, hlist, hcp⟩ := hok
          rw [LCondition.depth] at hdepth
          obtain ⟨bytes, hbytes, hreads⟩ := ih cp hcp (by omega)
          refine ⟨_, by rw [cullPackCond, if_pos hop, if_neg (not_not.mpr hlist), hbytes]; rfl,
            fun hlen => ?_⟩
          simp only [List.length_append] at hlen
          apply (unpackint_reads 1).bind
          apply (unpackint_reads op).bind
          rw [if_pos hop]
          apply (unpackint_reads pos).bind
          apply (unpackint_reads mt).bind
          apply (unpackint_reads nm).bind
          rw [if_neg (not_not.mpr hlist)]
          exact (hreads (by omega)).map
      | neg first =>
          rw [LCondition.depth] at hdepth
          obtain ⟨bytes, hbytes, hreads⟩ := ih first hok (by omega)
          refine ⟨_, by rw [cullPackCond, hbytes]; rfl, fun hlen => ?_⟩
          simp only [List.length_append] at hlen
          apply (unpackint_reads 1).bind
          apply (unpackint_reads NEG_OP).bind
          exact (hreads (by omega)).map
      | log op first second =>
          obtain ⟨hop, hfirst, hsecond⟩ := hok
          rw [LCondition.depth] at hdepth
          obtain ⟨bytes, hbytes, hreads⟩ := ih first hfirst (by omega)
          obtain ⟨rest, hrest, hreads'⟩ := ih second hsecond (by omega)
          refine ⟨_, by rw [cullPackCond, if_pos hop, hbytes, hrest]; rfl, fun hlen => ?_⟩
          simp only [List.length_append] at hlen
          apply (unpackint_reads 1).bind
          apply (unpackint_reads op).bind
          have hcomparison : ¬ isComparison op = true := by
            rcases hop with rfl | rfl <;> decide
          have hneg : op ≠ NEG_OP := by
            rcases hop with rfl | rfl <;> decide
          rw [if_neg hcomparison, if_neg hneg, if_pos hop]
          apply (hreads (by omega)).bind
          exact (hreads' (by omega)).map

/-- Enumerations and conditions come back as they were packed, with exactly their bytes taken. The
length of a buffer that is read is a `u_long32`. -/
theorem queries_roundTrip (xdr : Xdr D) (ns : Option (List LNameSpace)) :
    (∀ e : LEnumeration, e.Ok → ∀ fuel, e.depth < fuel →
      (cullUnpackEnum fuel).Reads (cullPackEnum e) e) ∧
    ∀ c : LCondition D, c.Ok → ∃ bytes, cullPackCond xdr c = .ok bytes ∧
      ∀ fuel, c.depth < fuel → bytes.length < 2 ^ 32 →
        (cullUnpackCond xdr ns fuel).Reads bytes (receivedCond c) := by
  refine ⟨fun e hok fuel => cullUnpackEnum_reads e hok, fun c hok => ?_⟩
  obtain ⟨bytes, hbytes, -⟩ :=
    @cullUnpackCond_travels D xdr ns _ c hok (Nat.lt_succ_self c.depth)
  refine ⟨bytes, hbytes, fun fuel hdepth hlen => ?_⟩
  obtain ⟨bytes', hbytes', hreads⟩ := @cullUnpackCond_travels D xdr ns fuel c hok hdepth
  obtain rfl : bytes = bytes' := Except.ok.inj (hbytes.symm.trans hbytes')
  exact hreads hlen

/-- An enumeration with one for a sublist, and a condition over a missing string. -/
theorem nestedQuery_roundTrip :
    (cullUnpackEnum 2).Reads (cullPackEnum (.array [(0, 3, 50, .null), (1, 9, 51, .all)]))
      (.array [(0, 3, 50, .null), (1, 9, 51, .all)]) ∧
    ∃ bytes, cullPackCond xdrBits (.log AND_OP (.neg .null) (.cmp 19 0 8 52 (.str none))) =
        .ok bytes ∧
      (cullUnpackCond xdrBits none 3).Reads bytes
        (.log AND_OP (.neg .null) (.cmp 19 0 8 52 (.str none))) := by
  refine ⟨(queries_roundTrip xdrBits none).1 _ ?_ 2 (by decide), ?_⟩
  · refine .array _ (by decide) (by decide) (by decide) (by decide) fun field hfield => ?_
    rcases List.mem_pair.mp hfield with rfl | rfl
    · exact .null
    · exact .all
  · obtain ⟨bytes, hbytes, hreads⟩ := (queries_roundTrip xdrBits none).2
      (.log AND_OP (.neg .null) (.cmp 19 0 8 52 (.str none)))
      ⟨.inl rfl, trivial, rfl, trivial⟩
    refine ⟨bytes, hbytes, hreads 3 (by decide) ?_⟩
    cases hbytes
    decide

end Condition

end GridEngine
