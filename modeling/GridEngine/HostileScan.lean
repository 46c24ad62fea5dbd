import GridEngine.ConnectRoundTrip

/-!
# The scan of hostile headers

What the scan of any buffer does, whatever stands in it. The scan stays inside the buffer but for
the comparison with `version` near its end. Where it is at a position, and which tags and signs of a
version it saw, depends on the text alone.
-/

namespace GridEngine.CheckedBuffer

section Positions
variable (ending : List (List Char)) (text : List Char)

/-- A name stands at a place in the text; with `exact` the tag ends behind it. -/
def Named (exact : Bool) (p : ℕ) (name : List Char) : Prop :=
  name <+: text.drop p ∧
    (exact = true → text[p + name.length]? = some '>' ∨ text[p + name.length]? = some '\x00')

instance (exact : Bool) (p : ℕ) (name : List Char) : Decidable (Named text exact p name) :=
  inferInstanceAs (Decidable (_ ∧ (_ → _)))

/-- Whether a position is in a tag, where the last tag in front of it begins, and whether it is
passed over. -/
structure Cursor where
  inTag : Bool
  tagBegin : ℕ
  skip : Bool
deriving DecidableEq, Repr

/-- The cursor at a position of the text. The character behind a tag of `ending` is passed over. -/
def cursor : ℕ → Cursor
  | 0 => ⟨false, 0, false⟩
  | q + 1 =>
      let c := cursor q
      if c.skip then { c with skip := false }
      else if text[q]? = some '<' then ⟨true, q + 1, false⟩
      else if text[q]? = some '>' then
        ⟨false, c.tagBegin, decide (c.tagBegin + 1 < q ∧ 0 < c.tagBegin ∧
          ∃ name ∈ ending, Named text true c.tagBegin name)⟩
      else c

/-- A tag ends at the position. -/
def TagEnd (q : ℕ) : Prop :=
  (cursor ending text q).skip = false ∧ text[q]? = some '>' ∧
    (cursor ending text q).tagBegin + 1 < q ∧ 0 < (cursor ending text q).tagBegin

instance (q : ℕ) : Decidable (TagEnd ending text q) :=
  inferInstanceAs (Decidable (_ ∧ _ ∧ _ ∧ _))

/-- A tag with the name ends at the position. -/
def NamedTag (exact : Bool) (name : List Char) (q : ℕ) : Prop :=
  TagEnd ending text q ∧ Named text exact (cursor ending text q).tagBegin name

/-- The position is that of a sign in a tag. -/
def InTagSign (q : ℕ) : Prop :=
  (cursor ending text q).skip = false ∧ text[q]? = some '=' ∧ (cursor ending text q).inTag = true

/-- The position is that of a sign in a tag that contains the word. -/
def VersionSign (q : ℕ) : Prop :=
  InTagSign ending text q ∧
    "version".toList <:+: (text.drop (cursor ending text q).tagBegin).takeWhile (· ≠ '>')

/-- The word is cut off at the end of an unfinished tag. -/
def CutShort (tag : List Char) : Prop :=
  '>' ∉ tag ∧ ¬ "version".toList <:+: tag ∧
    ∃ front, front ≠ [] ∧ front <+: "version".toList ∧ front <:+ tag

/-- A sign without a version in front of it stands in a tag that is cut off in the word. -/
def CutAt (q : ℕ) : Prop :=
  InTagSign ending text q ∧ CutShort (text.drop (cursor ending text q).tagBegin) ∧
    ∀ q' < q, ¬ VersionSign ending text q'

def CutAtVersion : Prop := ∃ q, CutAt ending text q

/-- The first sign of a version is one of the last two characters. -/
def LateVersion : Prop :=
  (∃ q, VersionSign ending text q) ∧ ∀ q, VersionSign ending text q → text.length ≤ q + 2

end Positions

section Version
variable {s name : List Char}

theorem strncmp_spec : strncmp s name =
    if name <+: s then some true else if s <+: name then none else some false := by
  induction name generalizing s with
  | nil => rw [strncmp, if_pos List.nil_prefix]
  | cons d name ih =>
      cases s with
      | nil => simp [strncmp]
      | cons c s =>
          rw [strncmp]
          by_cases hc : c = d
          · rw [if_pos hc, ih, hc]
            simp only [List.cons_prefix_cons, true_and]
          · rw [if_neg hc, if_neg fun h => hc (List.cons_prefix_cons.mp h).1.symm,
              if_neg fun h => hc (List.cons_prefix_cons.mp h).1]

theorem prefix_takeWhile (hname : '>' ∉ name) (h : name <+: s) :
    name <+: s.takeWhile (· ≠ '>') := by
  obtain ⟨rest, rfl⟩ := h
  have hplain : ∀ c ∈ name, decide (c ≠ '>') = true := fun c hc =>
    decide_eq_true fun h => hname (h ▸ hc)
  rw [List.takeWhile_append_of_pos hplain]
  exact List.prefix_append _ _

/-- The search for the word leaves the buffer exactly when the word is cut off, and finds it exactly
when the tag contains it. -/
theorem clXmlParseIsVersion_spec : (clXmlParseIsVersion s = none ↔ CutShort s) ∧
    (clXmlParseIsVersion s = some true ↔ "version".toList <:+: s.takeWhile (· ≠ '>')) := by
  induction s with
  | nil =>
      refine ⟨iff_of_false (by decide) ?_, iff_of_false (by decide) (by decide)⟩
      rintro ⟨-, -, front, hne, -, hsuffix⟩
      exact hne (List.suffix_nil.mp hsuffix)
  | cons c s ih =>
      rw [clXmlParseIsVersion]
      by_cases hc : c = '>'
      · rw [if_pos hc, hc]
        refine ⟨iff_of_false (by decide) fun h => h.1 List.mem_cons_self,
          iff_of_false (by decide) ?_⟩
        rw [List.takeWhile_cons_of_neg (by simp)]
        decide
      · have htake : (c :: s).takeWhile (· ≠ '>') = c :: s.takeWhile (· ≠ '>') :=
          List.takeWhile_cons_of_pos (decide_eq_true hc)
        rw [if_neg hc, strncmp_spec]
        by_cases hfound : "version".toList <+: c :: s
        · have hinfix := (prefix_takeWhile (by decide) hfound).isInfix
          rw [if_pos hfound]
          exact ⟨iff_of_false (by simp) fun h => h.2.1 hfound.isInfix, iff_of_true rfl hinfix⟩
        · rw [if_neg hfound]
          by_cases hcut : c :: s <+: "version".toList
          · have hshort : ¬ "version".toList <:+: c :: s := fun h =>
              hfound (h.eq_of_length_le hcut.length_le ▸ List.prefix_rfl)
            have hplain : '>' ∉ c :: s := fun h => absurd (hcut.subset h) (by decide)
            rw [if_pos hcut]
            refine ⟨iff_of_true rfl ⟨hplain, hshort, c :: s, List.cons_ne_nil c s, hcut,
              List.suffix_rfl⟩, iff_of_false (by simp) fun h => hshort ?_⟩
            exact h.trans (List.takeWhile_prefix _).isInfix
          · have hnext : ¬ "version".toList <+: c :: s.takeWhile (· ≠ '>') := fun h =>
              hfound (h.trans (htake ▸ List.takeWhile_prefix _))
            have hcutNext : CutShort (c :: s) ↔ CutShort s := by
              simp only [CutShort, List.mem_cons, not_or, List.infix_cons_iff, List.suffix_cons_iff]
              constructor
              · rintro ⟨⟨-, hplain⟩, ⟨-, hshort⟩, front, hne, hfront, rfl | hsuffix⟩
                · exact absurd hfront hcut
                · exact ⟨hplain, hshort, front, hne, hfront, hsuffix⟩
              · rintro ⟨hplain, hshort, front, hne, hfront, hsuffix⟩
                exact ⟨⟨Ne.symm hc, hplain⟩, ⟨hfound, hshort⟩, front, hne, hfront, .inr hsuffix⟩
            rw [if_neg hcut, hcutNext, htake, List.infix_cons_iff, or_iff_right hnext]
            exact ih

end Version

section Records
variable {P : ℕ → Prop} {value : ℕ → ℕ} {first : Bool} {k x q : ℕ}

/-- A variable holds the value of the first or of the last position with a property, 0 if there was
none. -/
def Recorded (first : Bool) (P : ℕ → Prop) (value : ℕ → ℕ) (k x : ℕ) : Prop :=
  (x = 0 ∧ ∀ q < k, ¬ P q) ∨
    ∃ q < k, P q ∧ x = value q ∧ ∀ q' < k, P q' → if first then q ≤ q' else q' ≤ q

theorem Recorded.pass (h : Recorded first P value k x) (hk : ¬ P k) :
    Recorded first P value (k + 1) x := by
  have hne : ∀ q, P q → q ≠ k := fun q hq heq => hk (heq ▸ hq)
  rcases h with ⟨rfl, hnone⟩ | ⟨q, hq, hP, rfl, hbest⟩
  · exact .inl ⟨rfl, fun q hq hP => hnone q (by have := hne q hP; omega) hP⟩
  · exact .inr ⟨q, by omega, hP, rfl, fun q' hq' hP' =>
      hbest q' (by have := hne q' hP'; omega) hP'⟩

theorem Recorded.set (h : Recorded first P value k x) (hk : P k) (hpos : ∀ q, P q → 0 < value q) :
    Recorded first P value (k + 1) (if first = true ∧ x ≠ 0 then x else value k) := by
  cases first with
  | false =>
      rw [if_neg (by simp)]
      exact .inr ⟨k, k.lt_succ_self, hk, rfl, fun q' hq' _ => Nat.le_of_lt_succ hq'⟩
  | true =>
      rcases h with ⟨rfl, hnone⟩ | ⟨q, hq, hP, rfl, hbest⟩
      · rw [if_neg (by simp)]
        refine .inr ⟨k, k.lt_succ_self, hk, rfl, fun q' hq' hP' => ?_⟩
        exact not_lt.mp fun hlt => hnone q' hlt hP'
      · rw [if_pos ⟨rfl, (hpos q hP).ne'⟩]
        refine .inr ⟨q, by omega, hP, rfl, fun q' hq' hP' => ?_⟩
        rcases Nat.lt_succ_iff_lt_or_eq.mp hq' with hlt | rfl
        · exact hbest q' hlt hP'
        · exact hq.le

theorem Recorded.final (h : Recorded first P value k x) (hbound : ∀ q, P q → q < k) :
    (x = 0 ∧ ∀ q, ¬ P q) ∨
      ∃ q, P q ∧ x = value q ∧ ∀ q', P q' → if first then q ≤ q' else q' ≤ q := by
  rcases h with ⟨rfl, hnone⟩ | ⟨q, -, hP, rfl, hbest⟩
  · exact .inl ⟨rfl, fun q hP => hnone q (hbound q hP) hP⟩
  · exact .inr ⟨q, hP, rfl, fun q' hP' => hbest q' (hbound q' hP') hP'⟩

end Records

section Tags
variable {ending : List (List Char)} {text name : List Char} {p q r k : ℕ} {exact : Bool} {c : Char}

/-- The text with terminators at the ends of its tags in front of a position. -/
def terminated (ending : List (List Char)) (text : List Char) (k : ℕ) : List Char :=
  text.mapIdx fun i c => if i < k ∧ TagEnd ending text i then '\x00' else c

theorem length_terminated : (terminated ending text k).length = text.length :=
  List.length_mapIdx

theorem getElem?_terminated : (terminated ending text k)[q]? =
    text[q]?.map fun c => if q < k ∧ TagEnd ending text q then '\x00' else c := by
  rw [terminated, List.getElem?_mapIdx]

theorem terminated_zero : terminated ending text 0 = text := by
  refine List.ext_getElem? fun q => ?_
  rw [getElem?_terminated]
  simp

theorem terminated_succ (h : TagEnd ending text k) :
    (terminated ending text k).set k '\x00' = terminated ending text (k + 1) := by
  have hk : k < text.length := (List.getElem?_eq_some_iff.mp h.2.1).1
  refine List.ext_getElem? fun q => ?_
  rw [List.getElem?_set, getElem?_terminated, getElem?_terminated, length_terminated]
  by_cases hq : k = q
  · subst hq
    rw [if_pos rfl, if_pos hk, h.2.1]
    simp [h]
  · have hlt : q < k + 1 ↔ q < k := by omega
    rw [if_neg hq]
    simp only [hlt]

theorem terminated_pass (h : ¬ TagEnd ending text k) :
    terminated ending text (k + 1) = terminated ending text k := by
  refine List.ext_getElem? fun q => ?_
  rw [getElem?_terminated, getElem?_terminated]
  have hlt : q < k + 1 ∧ TagEnd ending text q ↔ q < k ∧ TagEnd ending text q := by
    refine and_congr_left fun hq => ?_
    have hne : q ≠ k := fun heq => h (heq ▸ hq)
    omega
  simp only [hlt]

theorem terminated_eq_some (hc : c ≠ '\x00') (hc' : c ≠ '>') :
    (terminated ending text k)[q]? = some c ↔ text[q]? = some c := by
  rw [getElem?_terminated, Option.map_eq_some_iff]
  constructor
  · rintro ⟨d, hd, heq⟩
    by_cases h : q < k ∧ TagEnd ending text q
    · rw [if_pos h] at heq
      exact absurd heq.symm hc
    · rw [if_neg h] at heq
      rw [hd, heq]
  · intro hd
    refine ⟨c, hd, if_neg fun h => hc' ?_⟩
    rw [h.2.2.1] at hd
    exact (Option.some.inj hd).symm

theorem terminated_behind (h : k ≤ q) : (terminated ending text k)[q]? = text[q]? := by
  rw [getElem?_terminated]
  simp [show ¬ q < k by omega]

theorem drop_terminated (h : ∀ i, q ≤ i → i < k → ¬ TagEnd ending text i) :
    (terminated ending text k).drop q = text.drop q := by
  refine List.ext_getElem? fun i => ?_
  rw [List.getElem?_drop, List.getElem?_drop, getElem?_terminated]
  have hnot : ¬ (q + i < k ∧ TagEnd ending text (q + i)) := fun hi =>
    h (q + i) (by omega) hi.1 hi.2
  simp [hnot]

/-- The tag of a position is that of an earlier one or begins behind it. -/
theorem tagBegin_eq_or (h : r ≤ q) :
    (cursor ending text q).tagBegin = (cursor ending text r).tagBegin ∨
      r < (cursor ending text q).tagBegin := by
  induction q, h using Nat.le_induction with
  | base => exact .inl rfl
  | succ q hle ih =>
      rw [cursor]
      split_ifs
      · exact ih
      · exact .inr (Nat.lt_succ_of_le hle)
      · exact ih
      · exact ih

theorem skip_succ (h : (cursor ending text (q + 1)).skip = true) : text[q]? = some '>' := by
  rw [cursor] at h
  split_ifs at h with hskip hopen hclose
  · exact hclose
  · exact absurd h hskip

/-- No tag ended since the beginning of the tag that a position is in. -/
theorem not_tagEnd_of_inTag (h : (cursor ending text q).inTag = true)
    (hr : (cursor ending text q).tagBegin ≤ r) (hq : r < q) : ¬ TagEnd ending text r := by
  induction q with
  | zero => exact absurd hq (Nat.not_lt_zero r)
  | succ q ih =>
      rw [cursor] at h hr
      split_ifs at h hr with hskip hopen hclose
      · rcases Nat.lt_succ_iff_lt_or_eq.mp hq with hlt | rfl
        · exact ih h hr hlt
        · exact fun hend => absurd hskip (by simp [hend.1])
      · exact absurd hr (not_le.mpr hq)
      · rcases Nat.lt_succ_iff_lt_or_eq.mp hq with hlt | rfl
        · exact ih h hr hlt
        · exact fun hend => hclose hend.2.1

/-- A name stands at a place in the buffer, with a terminator behind it when `exact`. -/
def Hit (exact : Bool) (buffer : List Char) (p : ℕ) (name : List Char) : Prop :=
  name <+: buffer.drop p ∧ (exact = true → buffer[p + name.length]? = some '\x00')

instance {buffer : List Char} : Decidable (Hit exact buffer p name) :=
  inferInstanceAs (Decidable (_ ∧ (_ → _)))

/-- At the end of a tag the names in the buffer are those in the text. -/
theorem hit_terminated (h : TagEnd ending text q) (hlen : 2 ≤ name.length)
    (hname : ∀ c ∈ name, c ≠ '\x00' ∧ c ≠ '>') :
    Hit exact (terminated ending text (q + 1)) (cursor ending text q).tagBegin name ↔
      Named text exact (cursor ending text q).tagBegin name := by
  have hleads : name <+: (terminated ending text (q + 1)).drop (cursor ending text q).tagBegin ↔
      name <+: text.drop (cursor ending text q).tagBegin := by
    simp only [List.prefix_iff_getElem?, List.getElem?_drop]
    refine forall_congr' fun i => forall_congr' fun hi => ?_
    exact terminated_eq_some (hname _ (List.getElem_mem hi)).1 (hname _ (List.getElem_mem hi)).2
  have hterminator : name <+: text.drop (cursor ending text q).tagBegin →
      ((terminated ending text (q + 1))[(cursor ending text q).tagBegin + name.length]? =
        some '\x00' ↔ text[(cursor ending text q).tagBegin + name.length]? = some '>' ∨
          text[(cursor ending text q).tagBegin + name.length]? = some '\x00') := by
    intro hstands
    obtain ⟨-, hclose, hlt, hpos⟩ := h
    have hinside : ∀ i, (cursor ending text q).tagBegin ≤ i →
        i < (cursor ending text q).tagBegin + name.length → text[i]? ≠ some '>' := by
      intro i hle hi heq
      rw [List.prefix_iff_getElem?] at hstands
      have hchar := hstands (i - (cursor ending text q).tagBegin) (by omega)
      rw [List.getElem?_drop, Nat.add_sub_cancel' hle, heq] at hchar
      exact (hname _ (List.getElem_mem _)).2 (Option.some.inj hchar).symm
    have hle : (cursor ending text q).tagBegin + name.length ≤ q := by
      by_contra hgt
      exact hinside q (by omega) (by omega) hclose
    have hend : text[(cursor ending text q).tagBegin + name.length]? = some '>' →
        TagEnd ending text ((cursor ending text q).tagBegin + name.length) := by
      intro hchar
      have hbegin : (cursor ending text
          ((cursor ending text q).tagBegin + name.length)).tagBegin =
            (cursor ending text q).tagBegin :=
        ((tagBegin_eq_or hle).resolve_right (by omega)).symm
      refine ⟨?_, hchar, by omega, by omega⟩
      obtain ⟨m, hm⟩ : ∃ m, (cursor ending text q).tagBegin + name.length = m + 1 :=
        ⟨(cursor ending text q).tagBegin + name.length - 1, by omega⟩
      rw [hm]
      by_contra hskip
      exact hinside m (by omega) (by omega) (skip_succ (Bool.eq_true_of_not_eq_false hskip))
    rw [getElem?_terminated]
    generalize (cursor ending text q).tagBegin + name.length = r at *
    rw [Option.map_eq_some_iff]
    constructor
    · rintro ⟨c, hc, heq⟩
      by_cases hr : r < q + 1 ∧ TagEnd ending text r
      · exact .inl hr.2.2.1
      · rw [if_neg hr] at heq
        exact .inr (heq ▸ hc)
    · rintro (hchar | hchar)
      · exact ⟨'>', hchar, if_pos ⟨by omega, hend hchar⟩⟩
      · exact ⟨'\x00', hchar, by simp⟩
  constructor
  · rintro ⟨hstands, hexact⟩
    exact ⟨hleads.mp hstands, fun h => (hterminator (hleads.mp hstands)).mp (hexact h)⟩
  · rintro ⟨hstands, hexact⟩
    exact ⟨hleads.mpr hstands, fun h => (hterminator hstands).mpr (hexact h)⟩

end Tags

section Handling
variable {buffer name s : List Char} {p q : ℕ} {exact : Bool} {rules : List TagRule}
variable {onTag : TagScan → ℕ → Option TagScan} {ending : List (List Char)} {scan out : TagScan}

/-- `strcmp` or `strncmp`. -/
def comparison (exact : Bool) : List Char → List Char → Option Bool :=
  if exact then strcmp else strncmp

theorem strcmp_eq_of_terminated (hs : '\x00' ∈ s) (hname : '\x00' ∉ name) :
    strcmp s name = some (decide (name ++ ['\x00'] <+: s)) := by
  induction name generalizing s with
  | nil =>
      cases s with
      | nil => exact absurd hs List.not_mem_nil
      | cons c s => simp [strcmp, eq_comm]
  | cons d name ih =>
      obtain ⟨hd, hname⟩ := not_or.mp (mt List.mem_cons.mpr hname)
      cases s with
      | nil => exact absurd hs List.not_mem_nil
      | cons c s =>
          rw [strcmp]
          by_cases hc : c = d
          · have hs' : '\x00' ∈ s := (List.mem_cons.mp hs).resolve_left fun h => hd (h.trans hc)
            rw [if_pos hc, ih hs' hname, hc]
            simp only [List.cons_append, List.cons_prefix_cons, true_and]
          · have hne : ¬ d = c := Ne.symm hc
            simp [if_neg hc, List.cons_prefix_cons, hne]

theorem comparison_eq (hnull : '\x00' ∈ buffer.drop p) (hname : '\x00' ∉ name) :
    comparison exact (buffer.drop p) name = some (decide (Hit exact buffer p name)) := by
  cases exact with
  | false =>
      have hnot : ¬ buffer.drop p <+: name := fun h => hname (h.subset hnull)
      rw [comparison, if_neg Bool.false_ne_true, strncmp_spec, if_neg hnot]
      by_cases h : name <+: buffer.drop p
      · simp [Hit, h]
      · simp [Hit, h]
  | true =>
      rw [comparison, if_pos rfl, strcmp_eq_of_terminated hnull hname]
      have hiff : name ++ ['\x00'] <+: buffer.drop p ↔ Hit true buffer p name := by
        simp only [Hit, List.prefix_iff_getElem?, List.length_append, List.length_singleton,
          List.getElem?_drop]
        constructor
        · intro h
          refine ⟨fun i hi => ?_, fun _ => ?_⟩
          · rw [h i (by omega), List.getElem_append_left]
          · rw [h name.length (by omega), List.getElem_concat_length rfl]
        · rintro ⟨h, hnull⟩ i hi
          rcases Nat.lt_succ_iff_lt_or_eq.mp hi with hlt | rfl
          · rw [h i hlt, List.getElem_append_left]
          · rw [hnull True.intro, List.getElem_concat_length rfl]
      simp only [hiff]

/-- Names that stand in no other name. -/
structure GoodRules (rules : List TagRule) : Prop where
  names : ∀ rule ∈ rules, 2 ≤ rule.name.length ∧ ∀ c ∈ rule.name, c ≠ '\x00' ∧ c ≠ '>' ∧ c ≠ '/'
  apart : rules.Pairwise fun rule other =>
    ¬ rule.name <+: other.name ∧ ¬ other.name <+: rule.name
  opening : ∀ rule ∈ rules, ∀ p q, 0 < p → 0 < rule.opening p q

theorem names_of_all {rules : List TagRule}
    (h : (rules.all fun rule => decide (2 ≤ rule.name.length) &&
      rule.name.all fun c => c ≠ '\x00' ∧ c ≠ '>' ∧ c ≠ '/') = true) :
    ∀ rule ∈ rules, 2 ≤ rule.name.length ∧ ∀ c ∈ rule.name, c ≠ '\x00' ∧ c ≠ '>' ∧ c ≠ '/' := by
  intro rule hrule
  have hname := List.all_eq_true.mp h rule hrule
  rw [Bool.and_eq_true] at hname
  exact ⟨of_decide_eq_true hname.1, forall_chars hname.2⟩

theorem firstHit_comparison (hnull : '\x00' ∈ buffer.drop p)
    (hnames : ∀ rule ∈ rules, '\x00' ∉ rule.name) :
    (∃ rule ∈ rules, Hit exact buffer p rule.name ∧
      firstHit (comparison exact) (buffer.drop p) rules = some (some rule)) ∨
    ((∀ rule ∈ rules, ¬ Hit exact buffer p rule.name) ∧
      firstHit (comparison exact) (buffer.drop p) rules = some none) := by
  induction rules with
  | nil => exact .inr ⟨fun _ h => absurd h List.not_mem_nil, rfl⟩
  | cons rule rules ih =>
      rw [firstHit, comparison_eq hnull (hnames rule List.mem_cons_self)]
      by_cases hit : Hit exact buffer p rule.name
      · exact .inl ⟨rule, List.mem_cons_self, hit, by rw [decide_eq_true hit]⟩
      · rw [decide_eq_false hit]
        rcases ih fun other h => hnames other (List.mem_cons_of_mem rule h) with
          ⟨other, hmem, hhit, heq⟩ | ⟨hnone, heq⟩
        · exact .inl ⟨other, List.mem_cons_of_mem rule hmem, hhit, heq⟩
        · exact .inr ⟨List.forall_mem_cons.mpr ⟨hit, hnone⟩, heq⟩

theorem GoodRules.eq_of_hit (h : GoodRules rules) {rule other : TagRule} (hrule : rule ∈ rules)
    (hother : other ∈ rules) (hit : Hit exact buffer p rule.name)
    (hit' : Hit exact buffer p other.name) : rule = other := by
  by_contra hne
  have hsymm : Std.Symm fun rule other : TagRule =>
      ¬ rule.name <+: other.name ∧ ¬ other.name <+: rule.name := ⟨fun _ _ h => h.symm⟩
  have hapart := h.apart.forall hrule hother hne
  exact (List.prefix_or_prefix_of_prefix hit.1 hit'.1).elim hapart.1 hapart.2

theorem hit_slash {first : Char} (hfirst : buffer[p]? = some first) (hslash : first = '/') :
    Hit exact buffer (p + 1) name ↔ Hit exact buffer p ('/' :: name) := by
  have hdrop : buffer.drop p = '/' :: buffer.drop (p + 1) := by
    obtain ⟨hp, heq⟩ := List.getElem?_eq_some_iff.mp hfirst
    rw [List.drop_eq_getElem_cons hp, heq, hslash]
  rw [Hit, Hit, hdrop, List.cons_prefix_cons, List.length_cons, Nat.add_assoc,
    Nat.add_comm 1 name.length]
  simp

theorem not_hit_of_head {first d : Char} (hfirst : buffer[p]? = some first) (hne : d ≠ first) :
    ¬ Hit exact buffer p (d :: name) := by
  rintro ⟨hleads, -⟩
  obtain ⟨hp, heq⟩ := List.getElem?_eq_some_iff.mp hfirst
  rw [List.drop_eq_getElem_cons hp, heq] at hleads
  exact hne (List.cons_prefix_cons.mp hleads).1

/-- What stays when a tag is handled. -/
structure SameFrame (scan out : TagScan) : Prop where
  buffer : out.buffer = scan.buffer
  inTag : out.inTag = scan.inTag
  tagBegin : out.tagBegin = scan.tagBegin
  versionBegin : out.versionBegin = scan.versionBegin

/-- How a tag is handled that ends at a position. -/
structure Handled (exact : Bool) (ending : List (List Char)) (rules : List TagRule)
    (scan : TagScan) (q : ℕ) (out : TagScan) : Prop extends SameFrame scan out where
  skip : out.skip = decide (∃ name ∈ ending, Hit true scan.buffer scan.tagBegin name)
  begins : ∀ rule ∈ rules, out.begins rule.name =
    if Hit exact scan.buffer scan.tagBegin rule.name ∧
        ¬ (rule.firstOnly = true ∧ scan.begins rule.name ≠ 0) then
      rule.opening scan.tagBegin q
    else scan.begins rule.name
  ends : ∀ rule ∈ rules, out.ends rule.name =
    if Hit exact scan.buffer scan.tagBegin ('/' :: rule.name) then rule.closing scan.tagBegin q
    else scan.ends rule.name

/-- A parser that handles every tag. -/
def Handles (exact : Bool) (ending : List (List Char)) (rules : List TagRule)
    (onTag : TagScan → ℕ → Option TagScan) : Prop :=
  ∀ scan q, scan.skip = false → scan.tagBegin + 1 < q → scan.buffer[q]? = some '\x00' →
    ∃ out, onTag scan q = some out ∧ Handled exact ending rules scan q out

theorem mem_drop_of_getElem? {c : Char} (h : buffer[q]? = some c) (hle : p ≤ q) :
    c ∈ buffer.drop p := by
  have h' : (buffer.drop p)[q - p]? = some c := by rwa [List.getElem?_drop, Nat.add_sub_cancel' hle]
  exact List.mem_of_getElem? h'

theorem handles_lastTag {moves : Bool} (hname : '\x00' ∉ name) :
    Handles exact (if moves then [name] else []) [] (lastTag name moves) := by
  intro scan q hskip hlt hnull
  have hterm := mem_drop_of_getElem? hnull (by omega : scan.tagBegin ≤ q)
  have heq : strcmp (scan.buffer.drop scan.tagBegin) name =
      some (decide (Hit true scan.buffer scan.tagBegin name)) :=
    @comparison_eq _ _ _ true hterm hname
  refine ⟨_, by rw [lastTag, heq]; rfl, ?_⟩
  cases moves with
  | false => exact ⟨⟨by simp, by simp, by simp, by simp⟩, by simp [hskip], by simp, by simp⟩
  | true =>
      by_cases hit : Hit true scan.buffer scan.tagBegin name
      · exact ⟨⟨by simp [hit], by simp [hit], by simp [hit], by simp [hit]⟩, by simp [hit], by simp,
          by simp⟩
      · exact ⟨⟨by simp [hit], by simp [hit], by simp [hit], by simp [hit]⟩, by simp [hit, hskip],
          by simp, by simp⟩

theorem GoodRules.not_hit (h : GoodRules rules) {rule : TagRule} (hrule : rule ∈ rules)
    (hfirst : buffer[p]? = some '/') : ¬ Hit exact buffer p rule.name := by
  obtain ⟨hlen, hchars⟩ := h.names rule hrule
  cases hname : rule.name with
  | nil => simp [hname] at hlen
  | cons d rest => exact not_hit_of_head hfirst (hchars d (hname ▸ List.mem_cons_self)).2.2

theorem handles_valueTag (hrules : GoodRules rules) :
    Handles exact [] rules (valueTag (comparison exact) rules) := by
  intro scan q hskip hlt hnull
  have hlen : q < scan.buffer.length := (List.getElem?_eq_some_iff.mp hnull).1
  obtain ⟨first, hfirst⟩ : ∃ first, scan.buffer[scan.tagBegin]? = some first :=
    ⟨_, List.getElem?_eq_getElem (by omega)⟩
  have hnames : ∀ rule ∈ rules, '\x00' ∉ rule.name := fun rule hrule hmem =>
    ((hrules.names rule hrule).2 _ hmem).1 rfl
  rw [valueTag]
  simp only [hfirst, Option.bind_eq_bind, Option.bind_some, decide_eq_true_eq]
  by_cases hslash : first = '/'
  · -- a closing tag
    have hnot := fun rule hrule => @GoodRules.not_hit scan.buffer scan.tagBegin exact rules hrules
      rule hrule (hslash ▸ hfirst)
    have hiff := fun name => @hit_slash scan.buffer name scan.tagBegin exact first hfirst hslash
    rw [if_pos hslash, decide_eq_true hslash]
    rcases @firstHit_comparison scan.buffer (scan.tagBegin + 1) exact rules
      (mem_drop_of_getElem? hnull hlt.le) hnames with ⟨rule, hmem, hit, heq⟩ | ⟨hnone, heq⟩
    · refine ⟨{ scan with
          ends := Function.update scan.ends rule.name (rule.closing scan.tagBegin q) },
        by rw [heq]; rfl, ⟨rfl, rfl, rfl, rfl⟩, by simp [hskip],
        fun other hother => (if_neg fun h => hnot other hother h.1).symm, fun other hother => ?_⟩
      by_cases hname : other.name = rule.name
      · have hother' := hrules.eq_of_hit hother hmem (hname ▸ hit) hit
        rw [hother', if_pos ((hiff _).mp hit)]
        exact Function.update_self _ _ _
      · rw [if_neg fun h => hname (congrArg TagRule.name
          (hrules.eq_of_hit hother hmem ((hiff _).mpr h) hit))]
        exact Function.update_of_ne hname _ _
    · refine ⟨_, by rw [heq]; rfl, ⟨rfl, rfl, rfl, rfl⟩, by simp [hskip],
        fun other hother => (if_neg fun h => hnot other hother h.1).symm, fun other hother => ?_⟩
      rw [if_neg fun h => hnone other hother ((hiff _).mpr h)]
  · -- an opening tag
    have hnot := fun name => @not_hit_of_head scan.buffer name scan.tagBegin exact first '/' hfirst
      (Ne.symm hslash)
    rw [if_neg hslash, decide_eq_false hslash]
    rcases @firstHit_comparison scan.buffer scan.tagBegin exact rules
      (mem_drop_of_getElem? hnull (by omega)) hnames with ⟨rule, hmem, hit, heq⟩ | ⟨hnone, heq⟩
    · refine ⟨rule.apply false q scan, by rw [heq]; rfl, ?_⟩
      by_cases hkeep : rule.firstOnly = true ∧ scan.begins rule.name ≠ 0
      · have happly : rule.apply false q scan = scan := by
          rw [TagRule.apply, if_neg Bool.false_ne_true, if_pos hkeep]
        rw [happly]
        refine ⟨⟨rfl, rfl, rfl, rfl⟩, by simp [hskip], fun other hother => ?_,
          fun other _ => (if_neg (hnot _)).symm⟩
        refine (if_neg fun h => h.2 ?_).symm
        rwa [hrules.eq_of_hit hother hmem h.1 hit]
      · have happly : rule.apply false q scan = { scan with
            begins := Function.update scan.begins rule.name (rule.opening scan.tagBegin q) } := by
          rw [TagRule.apply, if_neg Bool.false_ne_true, if_neg hkeep]
        rw [happly]
        refine ⟨⟨rfl, rfl, rfl, rfl⟩, by simp [hskip], fun other hother => ?_,
          fun other _ => (if_neg (hnot _)).symm⟩
        by_cases hname : other.name = rule.name
        · have hother' := hrules.eq_of_hit hother hmem (hname ▸ hit) hit
          rw [hother', if_pos ⟨hit, hkeep⟩]
          exact Function.update_self _ _ _
        · rw [if_neg fun h => hname (congrArg TagRule.name (hrules.eq_of_hit hother hmem h.1 hit))]
          exact Function.update_of_ne hname _ _
    · refine ⟨_, by rw [heq]; rfl, ⟨rfl, rfl, rfl, rfl⟩, by simp [hskip],
        fun other hother => (if_neg fun h => hnone other hother h.1).symm,
        fun other _ => (if_neg (hnot _)).symm⟩

end Handling

section Scanning
variable {text : List Char} {exact : Bool} {ending : List (List Char)} {rules : List TagRule}
variable {onTag : TagScan → ℕ → Option TagScan} {k v : ℕ} {scan : TagScan} {c : Cursor}

/-- The state of the scan in front of a position. -/
structure Scanned (exact : Bool) (ending : List (List Char)) (rules : List TagRule)
    (text : List Char) (k : ℕ) (scan : TagScan) : Prop where
  buffer : scan.buffer = terminated ending text k
  inTag : scan.inTag = (cursor ending text k).inTag
  tagBegin : scan.tagBegin = (cursor ending text k).tagBegin
  skip : scan.skip = (cursor ending text k).skip
  version : Recorded true (VersionSign ending text) (fun q => q + 2) k scan.versionBegin
  begins : ∀ rule ∈ rules, Recorded rule.firstOnly (NamedTag ending text exact rule.name)
    (fun q => rule.opening (cursor ending text q).tagBegin q) k (scan.begins rule.name)
  ends : ∀ rule ∈ rules, Recorded false (NamedTag ending text exact ('/' :: rule.name))
    (fun q => rule.closing (cursor ending text q).tagBegin q) k (scan.ends rule.name)

theorem scanned_init : Scanned exact ending rules text 0 (.init text) :=
  ⟨terminated_zero.symm, rfl, rfl, rfl, .inl ⟨rfl, fun _ h => absurd h (Nat.not_lt_zero _)⟩,
    fun _ _ => .inl ⟨rfl, fun _ h => absurd h (Nat.not_lt_zero _)⟩,
    fun _ _ => .inl ⟨rfl, fun _ h => absurd h (Nat.not_lt_zero _)⟩⟩

theorem Scanned.quiet (h : Scanned exact ending rules text k scan) (hend : ¬ TagEnd ending text k)
    (hcursor : cursor ending text (k + 1) = c)
    (hversion : Recorded true (VersionSign ending text) (fun q => q + 2) (k + 1) v) :
    Scanned exact ending rules text (k + 1)
      { scan with inTag := c.inTag, tagBegin := c.tagBegin, skip := c.skip, versionBegin := v } :=
  ⟨h.buffer.trans (terminated_pass hend).symm, hcursor ▸ rfl, hcursor ▸ rfl, hcursor ▸ rfl,
    hversion,
    fun rule hrule => (h.begins rule hrule).pass fun hnamed => hend hnamed.1,
    fun rule hrule => (h.ends rule hrule).pass fun hnamed => hend hnamed.1⟩

theorem Scanned.versionBegin_eq_zero (h : Scanned exact ending rules text k scan) :
    scan.versionBegin = 0 ↔ ∀ q < k, ¬ VersionSign ending text q := by
  rcases h.version with ⟨hzero, hnone⟩ | ⟨q, hq, hsign, hvalue, -⟩
  · exact iff_of_true hzero hnone
  · exact iff_of_false (by rw [hvalue]; exact Nat.succ_ne_zero _) fun hnone => hnone q hq hsign

theorem Scanned.step_sign (h : Scanned exact ending rules text k scan)
    (hskip : (cursor ending text k).skip = false) (hchar : text[k]? = some '=') :
    (CutAt ending text k ∧ scanStep onTag scan k = none) ∨
      (¬ CutAt ending text k ∧ ∃ out, scanStep onTag scan k = some out ∧
        Scanned exact ending rules text (k + 1) out) := by
  have hend : ¬ TagEnd ending text k := fun hend => by simp [hend.2.1] at hchar
  have hcursor : cursor ending text (k + 1) = cursor ending text k := by
    rw [cursor]
    simp [hskip, hchar]
  have hread : scan.buffer[k]? = some '=' := by rw [h.buffer, terminated_behind le_rfl, hchar]
  have hkeep : ∀ v, { scan with
      inTag := (cursor ending text k).inTag
      tagBegin := (cursor ending text k).tagBegin
      skip := (cursor ending text k).skip
      versionBegin := v } = { scan with versionBegin := v } := fun v => by
    rw [← h.inTag, ← h.tagBegin, ← h.skip]
  have hquiet := fun v hv => hkeep v ▸ h.quiet (v := v) hend hcursor hv
  have hskip' : ¬ scan.skip = true := by simp [h.skip, hskip]
  rw [scanStep, if_neg hskip']
  simp only [hread, Option.bind_eq_bind, Option.bind_some, if_true]
  by_cases hlook : scan.inTag = true ∧ scan.versionBegin = 0
  · have hin : (cursor ending text k).inTag = true := h.inTag ▸ hlook.1
    have hsign : InTagSign ending text k := ⟨hskip, hchar, hin⟩
    have hnone := h.versionBegin_eq_zero.mp hlook.2
    have hdrop : scan.buffer.drop scan.tagBegin =
        text.drop (cursor ending text k).tagBegin := by
      rw [h.buffer, h.tagBegin]
      exact drop_terminated fun i => not_tagEnd_of_inTag hin
    obtain ⟨hcut, hfound⟩ := @clXmlParseIsVersion_spec (text.drop (cursor ending text k).tagBegin)
    rw [if_pos hlook, hdrop]
    cases hresult : clXmlParseIsVersion (text.drop (cursor ending text k).tagBegin) with
    | none => exact .inl ⟨⟨hsign, hcut.mp hresult, hnone⟩, rfl⟩
    | some found =>
        refine .inr ⟨fun h => by simp [hcut.mpr h.2.1] at hresult, ?_⟩
        cases found with
        | true =>
            have hversion := h.version.set ⟨hsign, hfound.mp hresult⟩ fun q _ => Nat.succ_pos _
            rw [if_neg fun h => h.2 hlook.2] at hversion
            exact ⟨_, by simp only [Option.bind_some, if_true]; rfl, hquiet _ hversion⟩
        | false =>
            have hnot : ¬ VersionSign ending text k := fun hv => by
              simp [hfound.mpr hv.2] at hresult
            exact ⟨_, rfl, hquiet _ (h.version.pass hnot)⟩
  · have hcut : ¬ CutAt ending text k := fun hcut => hlook
      ⟨h.inTag.trans hcut.1.2.2, h.versionBegin_eq_zero.mpr hcut.2.2⟩
    rw [if_neg hlook]
    refine .inr ⟨hcut, _, rfl, hquiet _ ?_⟩
    by_cases hsign : VersionSign ending text k
    · have hversion := h.version.set hsign fun q _ => Nat.succ_pos _
      rwa [if_pos ⟨rfl, fun hzero => hlook ⟨h.inTag.trans hsign.1.2.2, hzero⟩⟩] at hversion
    · exact h.version.pass hsign

theorem Scanned.step_tagEnd (h : Scanned exact ending rules text k scan)
    (hrules : GoodRules rules)
    (hending : ∀ name ∈ ending, 2 ≤ name.length ∧ ∀ c ∈ name, c ≠ '\x00' ∧ c ≠ '>')
    (hhandles : Handles exact ending rules onTag) (hend : TagEnd ending text k) :
    ∃ out, scanStep onTag scan k = some out ∧ Scanned exact ending rules text (k + 1) out := by
  obtain ⟨hskip, hchar, hlt, hpos⟩ := id hend
  have hread : scan.buffer[k]? = some '>' := by rw [h.buffer, terminated_behind le_rfl, hchar]
  have hlen : k < scan.buffer.length := (List.getElem?_eq_some_iff.mp hread).1
  have hset : setNull scan.buffer k = some (terminated ending text (k + 1)) := by
    rw [setNull, if_pos hlen, h.buffer, terminated_succ hend]
  have hnull : (terminated ending text (k + 1))[k]? = some '\x00' := by
    rw [getElem?_terminated, hchar]
    simp [hend]
  obtain ⟨out, hout, handled⟩ := hhandles
    { scan with buffer := terminated ending text (k + 1), inTag := false } k (h.skip.trans hskip)
    (by rw [← h.tagBegin] at hlt; exact hlt) hnull
  have hnames : ∀ rule ∈ rules, (2 ≤ rule.name.length ∧ ∀ c ∈ rule.name, c ≠ '\x00' ∧ c ≠ '>') ∧
      (2 ≤ ('/' :: rule.name).length ∧ ∀ c ∈ '/' :: rule.name, c ≠ '\x00' ∧ c ≠ '>') := by
    intro rule hrule
    obtain ⟨hlen, hchars⟩ := hrules.names rule hrule
    refine ⟨⟨hlen, fun c hc => ⟨(hchars c hc).1, (hchars c hc).2.1⟩⟩, hlen.trans (Nat.le_succ _),
      List.forall_mem_cons.mpr ⟨by decide, fun c hc => ⟨(hchars c hc).1, (hchars c hc).2.1⟩⟩⟩
  refine ⟨out, ?_, ?_⟩
  · have hskip' : ¬ scan.skip = true := by simp [h.skip, hskip]
    rw [scanStep, if_neg hskip']
    simp only [hread, Option.bind_eq_bind, Option.bind_some, Char.reduceEq, if_false, if_true, hset]
    rw [if_pos ⟨by rw [h.tagBegin]; omega, by rw [h.tagBegin]; exact hpos⟩]
    exact hout
  · have hcursor : cursor ending text (k + 1) = ⟨false, (cursor ending text k).tagBegin,
        decide (∃ name ∈ ending, Named text true (cursor ending text k).tagBegin name)⟩ := by
      rw [cursor]
      simp [hskip, hchar, hlt, hpos]
    have hhit := fun name (hname : 2 ≤ name.length ∧ ∀ c ∈ name, c ≠ '\x00' ∧ c ≠ '>') exact =>
      @hit_terminated ending text name k exact hend hname.1 hname.2
    have hsign : ¬ VersionSign ending text k := fun hv => by simp [hv.1.2.1] at hchar
    refine ⟨handled.buffer, ?_, ?_, ?_, ?_, fun rule hrule => ?_, fun rule hrule => ?_⟩
    · rw [hcursor]
      exact handled.inTag
    · rw [hcursor]
      exact handled.tagBegin.trans h.tagBegin
    · rw [hcursor, handled.skip]
      refine decide_eq_decide.mpr (exists_congr fun name => and_congr_right fun hname => ?_)
      exact h.tagBegin ▸ hhit name (hending name hname) true
    · rw [handled.versionBegin]
      exact h.version.pass hsign
    · have hit : Hit exact (terminated ending text (k + 1)) scan.tagBegin rule.name ↔
          Named text exact (cursor ending text k).tagBegin rule.name :=
        h.tagBegin ▸ hhit rule.name (hnames rule hrule).1 exact
      rw [handled.begins rule hrule]
      by_cases hnamed : Named text exact (cursor ending text k).tagBegin rule.name
      · have hset := (h.begins rule hrule).set ⟨hend, hnamed⟩ fun q hq =>
          hrules.opening rule hrule _ _ hq.1.2.2.2
        by_cases hkeep : rule.firstOnly = true ∧ scan.begins rule.name ≠ 0
        · rw [if_pos hkeep] at hset
          rwa [if_neg fun h => h.2 hkeep]
        · rw [if_neg hkeep] at hset
          rw [if_pos ⟨hit.mpr hnamed, hkeep⟩]
          exact h.tagBegin ▸ hset
      · rw [if_neg fun h => hnamed (hit.mp h.1)]
        exact (h.begins rule hrule).pass fun htag => hnamed htag.2
    · have hit : Hit exact (terminated ending text (k + 1)) scan.tagBegin ('/' :: rule.name) ↔
          Named text exact (cursor ending text k).tagBegin ('/' :: rule.name) :=
        h.tagBegin ▸ hhit ('/' :: rule.name) (hnames rule hrule).2 exact
      rw [handled.ends rule hrule]
      by_cases hnamed : Named text exact (cursor ending text k).tagBegin ('/' :: rule.name)
      · refine .inr ⟨k, k.lt_succ_self, ⟨hend, hnamed⟩, ?_, fun q hq _ => Nat.le_of_lt_succ hq⟩
        rw [if_pos (hit.mpr hnamed)]
        exact congrArg (rule.closing · k) h.tagBegin
      · rw [if_neg fun h => hnamed (hit.mp h)]
        exact (h.ends rule hrule).pass fun htag => hnamed htag.2

/-- One turn of the loop leaves the buffer exactly where the word is cut off. -/
theorem Scanned.step (h : Scanned exact ending rules text k scan) (hrules : GoodRules rules)
    (hending : ∀ name ∈ ending, 2 ≤ name.length ∧ ∀ c ∈ name, c ≠ '\x00' ∧ c ≠ '>')
    (hhandles : Handles exact ending rules onTag) (hk : k < text.length) :
    (CutAt ending text k ∧ scanStep onTag scan k = none) ∨
      (¬ CutAt ending text k ∧ ∃ out, scanStep onTag scan k = some out ∧
        Scanned exact ending rules text (k + 1) out) := by
  obtain ⟨d, hchar⟩ : ∃ d, text[k]? = some d := ⟨_, List.getElem?_eq_getElem hk⟩
  have hread : scan.buffer[k]? = some d := by rw [h.buffer, terminated_behind le_rfl, hchar]
  by_cases hskip : (cursor ending text k).skip = true
  · -- a position that is passed over
    have hcut : ¬ CutAt ending text k := fun hcut => by simp [hcut.1.1] at hskip
    have hend : ¬ TagEnd ending text k := fun hend => by simp [hend.1] at hskip
    have hsign : ¬ VersionSign ending text k := fun hv => by simp [hv.1.1] at hskip
    have hcursor : cursor ending text (k + 1) = { cursor ending text k with skip := false } := by
      rw [cursor]
      simp [hskip]
    have hquiet := h.quiet hend hcursor (h.version.pass hsign)
    refine .inr ⟨hcut, _, by rw [scanStep, if_pos (h.skip.trans hskip)], ?_⟩
    rw [← h.inTag, ← h.tagBegin] at hquiet
    exact hquiet
  · replace hskip : (cursor ending text k).skip = false := Bool.eq_false_iff.mpr hskip
    have hskip' : ¬ scan.skip = true := by simp [h.skip, hskip]
    by_cases hsign : d = '='
    · exact h.step_sign hskip (hsign ▸ hchar)
    have hcut : ¬ CutAt ending text k := fun hcut =>
      hsign (Option.some.inj (hchar.symm.trans hcut.1.2.1))
    have hpass := h.version.pass fun hv => hsign (Option.some.inj (hchar.symm.trans hv.1.2.1))
    refine .inr ⟨hcut, ?_⟩
    by_cases hend : TagEnd ending text k
    · exact h.step_tagEnd hrules hending hhandles hend
    rw [scanStep, if_neg hskip']
    simp only [hread, Option.bind_eq_bind, Option.bind_some, if_neg hsign]
    by_cases hopen : d = '<'
    · have hcursor : cursor ending text (k + 1) = ⟨true, k + 1, false⟩ := by
        rw [cursor]
        simp [hskip, hchar, hopen]
      rw [if_pos hopen]
      have hquiet := h.quiet hend hcursor hpass
      rw [← hskip, ← h.skip] at hquiet
      exact ⟨_, rfl, hquiet⟩
    · rw [if_neg hopen]
      by_cases hclose : d = '>'
      · have hnot : ¬ ((cursor ending text k).tagBegin + 1 < k ∧
            0 < (cursor ending text k).tagBegin) := fun hlt =>
          hend ⟨hskip, hclose ▸ hchar, hlt⟩
        have hcursor : cursor ending text (k + 1) =
            ⟨false, (cursor ending text k).tagBegin, false⟩ := by
          rw [cursor, if_neg (by simp [hskip]), hchar, if_neg (by simp [hopen]),
            if_pos (by rw [hclose])]
          simp only [Cursor.mk.injEq, true_and, decide_eq_false_iff_not]
          exact fun hlt => hnot ⟨hlt.1, hlt.2.1⟩
        rw [if_pos hclose, if_neg fun hlt => hnot ⟨by rw [← h.tagBegin]; omega, h.tagBegin ▸ hlt.2⟩]
        have hout : { scan with
            inTag := false
            tagBegin := (cursor ending text k).tagBegin
            skip := false } = { scan with inTag := false } := by
          rw [← h.tagBegin, ← hskip, ← h.skip]
        exact ⟨_, rfl, hout ▸ h.quiet hend hcursor hpass⟩
      · have hcursor : cursor ending text (k + 1) = cursor ending text k := by
          rw [cursor]
          simp [hskip, hchar, hopen, hclose]
        rw [if_neg hclose]
        have hquiet := h.quiet hend hcursor hpass
        rw [← h.inTag, ← h.skip, ← h.tagBegin] at hquiet
        exact ⟨_, rfl, hquiet⟩

/-- The scan leaves the buffer exactly when a tag is cut off in the word. -/
theorem scanBuffer_spec (hrules : GoodRules rules)
    (hending : ∀ name ∈ ending, 2 ≤ name.length ∧ ∀ c ∈ name, c ≠ '\x00' ∧ c ≠ '>')
    (hhandles : Handles exact ending rules onTag) :
    (CutAtVersion ending text ∧ scanBuffer onTag text = none) ∨
      (¬ CutAtVersion ending text ∧ ∃ scan, scanBuffer onTag text = some scan ∧
        Scanned exact ending rules text text.length scan) := by
  have hrun : ∀ k ≤ text.length,
      ((∃ q < k, CutAt ending text q) ∧ scanFrom onTag (.init text) 0 k = none) ∨
      ((∀ q < k, ¬ CutAt ending text q) ∧ ∃ scan, scanFrom onTag (.init text) 0 k = some scan ∧
        Scanned exact ending rules text k scan) := by
    intro k
    induction k with
    | zero => exact fun _ => .inr ⟨fun _ h => absurd h (Nat.not_lt_zero _), _, rfl, scanned_init⟩
    | succ k ih =>
        intro hk
        rw [scanFrom_add, Nat.zero_add]
        rcases ih (by omega) with ⟨⟨q, hq, hcut⟩, hnone⟩ | ⟨hsafe, scan, hsome, hscan⟩
        · exact .inl ⟨⟨q, by omega, hcut⟩, by rw [hnone]; rfl⟩
        · rw [hsome, Option.bind_some, scanFrom_one]
          rcases hscan.step hrules hending hhandles (by omega) with ⟨hcut, hnone⟩ | ⟨hcut, hout⟩
          · exact .inl ⟨⟨k, k.lt_succ_self, hcut⟩, hnone⟩
          · refine .inr ⟨fun q hq => ?_, hout⟩
            rcases Nat.lt_succ_iff_lt_or_eq.mp hq with hlt | rfl
            · exact hsafe q hlt
            · exact hcut
  rcases hrun text.length le_rfl with ⟨⟨q, -, hcut⟩, hnone⟩ | ⟨hsafe, hsome⟩
  · exact .inl ⟨⟨q, hcut⟩, hnone⟩
  · refine .inr ⟨fun ⟨q, hcut⟩ => hsafe q ?_ hcut, hsome⟩
    exact (List.getElem?_eq_some_iff.mp hcut.1.2.1).1

end Scanning

end GridEngine.CheckedBuffer
