import GridEngine.UtilizationBelow

/-!
# Calendar periods in a slot diagram

`set_utilization` overrides a diagram with the amount of one calendar period. A first scan looks
for the place of its start, a second one from there removes the entries up to its end and carries
the amount that is to hold behind it.
-/

namespace GridEngine
open StepFunction

def long32Max : ℕ := 2147483647

def dispatchTimeQueueEnd : ℕ := long32Max

/-- The search for the starting point: the elements before the pointer, those from the pointer on,
and the past utilization. -/
def searchFrom (fromTime : ℕ) (uti : ℚ) : List Rde → Option (List Rde × List Rde × ℚ)
  | [] => none
  | this :: rest =>
      if fromTime < this.time then some ([⟨fromTime, uti⟩], this :: rest, this.amount)
      else if this.time = fromTime then some ([], { this with amount := uti } :: rest, this.amount)
      else (searchFrom fromTime uti rest).map
        (fun (before, next, pastUti) => (this :: before, next, pastUti))

/-- The search for the endpoint, which removes what it passes. The flag is `is_till_added`. -/
def searchTill (till : ℕ) (pastUti : ℚ) : List Rde → List Rde × Bool
  | [] => ([], false)
  | this :: rest =>
      if till < this.time then (⟨till, pastUti⟩ :: this :: rest, true)
      else if this.time = till then (this :: rest, true)
      else searchTill till this.amount rest

/-- The end of a period: 0 means that it has none. -/
def tillTime (till : ℕ) : ℕ := if till = 0 then dispatchTimeQueueEnd else till

/-- `set_utilization`. -/
def setUtilization (utiList : List Rde) (fromTime till : ℕ) (uti : ℚ) : List Rde :=
  if 0 < uti then
    let till := tillTime till
    let (utiList, isTillAdded) :=
      match searchFrom fromTime uti utiList with
      | some (before, next, pastUti) =>
          let (after, isTillAdded) := searchTill till pastUti next
          (before ++ after, isTillAdded)
      | none => (utiList ++ [(⟨fromTime, uti⟩ : Rde)], false)
    if isTillAdded then utiList else utiList ++ [(⟨till, 0⟩ : Rde)]
  else utiList

/-- One of the `QU_state_changes` of a queue. -/
structure StateChange where
  isFull : Bool
  till : ℕ
deriving DecidableEq, Repr

/-- The periods of one queue in `add_calendar_to_schedule`, each from the end of the one before. -/
def addCalendar (slotCount : ℚ) : ℕ → List StateChange → List Rde → List Rde
  | _, [], slotUtiList => slotUtiList
  | fromTime, change :: changes, slotUtiList =>
      addCalendar slotCount change.till changes
        (setUtilization slotUtiList fromTime change.till (if change.isFull then slotCount else 0))

/-- The diagram has the amount `uti` in the period and is as before at every other time. -/
structure Overlays (d : List Rde) (fromTime till : ℕ) (uti : ℚ) (out : List Rde) : Prop where
  sorted : Sorted out
  amountAt_eq : ∀ t, amountAt out t = if fromTime ≤ t ∧ t < till then uti else amountAt d t

/-- When the period is entered and the amount behind it is the one before. -/
structure OverlayKept (d : List Rde) (fromTime till : ℕ) (uti : ℚ) : Prop where
  start : (∀ e ∈ d, e.time ≠ fromTime) ∨ lastAmount 0 (d.filter (fun e => e.time < fromTime)) = uti
  resume : (∃ e ∈ d, e.time = till) ∨ ((∀ e ∈ d, e.time < till) ∧ amountAt d till = 0) ∨
    ((∃ e ∈ d, till < e.time) ∧
      ((∃ e ∈ d, fromTime < e.time ∧ e.time < till) ∨ (∃ e ∈ d, e.time = fromTime ∧ e.amount = uti) ∨
        (∀ e ∈ d, e.time < fromTime ∨ till < e.time) ∧
          ∀ e ∈ d.find? (fun e => till < e.time), e.amount = amountAt d fromTime))

/-- A diagram in the parts before, in and behind a period. -/
structure Parts (d before inside behind : List Rde) (fromTime till : ℕ) : Prop where
  eq : d = before ++ (inside ++ behind)
  sorted : Sorted d
  lt_till : fromTime < till
  before_lt : ∀ e ∈ before, e.time < fromTime
  inside_ge : ∀ e ∈ inside, fromTime ≤ e.time
  inside_lt : ∀ e ∈ inside, e.time < till
  behind_ge : ∀ e ∈ behind, till ≤ e.time

section Searches
variable {d l before inside behind : List Rde} {fromTime till t : ℕ} {uti pastUti v : ℚ} {e : Rde}

theorem searchFrom_append (hbefore : ∀ e ∈ before, e.time < fromTime) :
    searchFrom fromTime uti (before ++ l) = (searchFrom fromTime uti l).map
      (fun (before', next, pastUti) => (before ++ before', next, pastUti)) := by
  induction before with
  | nil => cases h : searchFrom fromTime uti l <;> simp [h]
  | cons this rest ih =>
      have hlt := hbefore this List.mem_cons_self
      rw [List.cons_append, searchFrom, if_neg (by omega), if_neg (by omega),
        ih (fun e he => hbefore e (List.mem_cons_of_mem _ he)), Option.map_map]
      rfl

theorem searchTill_append (hinside : ∀ e ∈ inside, e.time < till) :
    searchTill till pastUti (inside ++ l) = searchTill till (lastAmount pastUti inside) l := by
  induction inside generalizing pastUti with
  | nil => rfl
  | cons this rest ih =>
      have hlt := hinside this List.mem_cons_self
      rw [List.cons_append, searchTill, if_neg (by omega), if_neg (by omega),
        ih (fun e he => hinside e (List.mem_cons_of_mem _ he)), lastAmount]

theorem searchTill_behind (hbehind : ∀ e ∈ behind, till ≤ e.time) :
    searchTill till pastUti behind = match behind with
      | [] => ([], false)
      | next :: rest => (if next.time = till then next :: rest
          else ⟨till, pastUti⟩ :: next :: rest, true) := by
  cases behind with
  | nil => rfl
  | cons next rest =>
      have hle := hbehind next List.mem_cons_self
      rw [searchTill]
      by_cases heq : next.time = till
      · simp only [if_pos heq, if_neg (by omega : ¬ till < next.time)]
      · simp only [if_neg heq, if_pos (by omega : till < next.time)]

/-- The entry of the start: one at the same time is removed with the others of the period. -/
def startPart (fromTime : ℕ) (uti : ℚ) : List Rde → List Rde
  | [] => [⟨fromTime, uti⟩]
  | this :: _ => if this.time = fromTime then [] else [⟨fromTime, uti⟩]

/-- The amount that is entered behind the period. -/
def resumed (fromTime : ℕ) (uti : ℚ) (next : Rde) : List Rde → ℚ
  | [] => next.amount
  | this :: rest => lastAmount (if this.time = fromTime then uti else this.amount) rest

/-- What stands behind the period. -/
def endPart (fromTime till : ℕ) (uti : ℚ) (inside : List Rde) : List Rde → List Rde
  | [] => [⟨till, 0⟩]
  | next :: rest =>
      if next.time = till then next :: rest
      else ⟨till, resumed fromTime uti next inside⟩ :: next :: rest

/-- The diagram that `set_utilization` makes. -/
theorem setUtilization_parts {end' : ℕ}
    (h : Parts d before inside behind fromTime (tillTime end')) (huti : 0 < uti) :
    setUtilization d fromTime end' uti = before ++ (startPart fromTime uti inside ++
      endPart fromTime (tillTime end') uti inside behind) := by
  have hlt := h.lt_till
  rw [h.eq, setUtilization, if_pos huti, searchFrom_append h.before_lt]
  generalize tillTime end' = till at h hlt
  cases inside with
  | nil =>
      cases behind with
      | nil => simp [searchFrom, startPart, endPart]
      | cons next rest =>
          have hle := h.behind_ge next List.mem_cons_self
          have hsearch : searchFrom fromTime uti ([] ++ next :: rest) =
              some ([⟨fromTime, uti⟩], next :: rest, next.amount) := if_pos (by omega)
          rw [hsearch]
          simp [searchTill_behind h.behind_ge, startPart, endPart, resumed]
  | cons this inside' =>
      have hge := h.inside_ge this List.mem_cons_self
      by_cases heq : this.time = fromTime
      · have hsearch : searchFrom fromTime uti (this :: inside' ++ behind) =
            some ([], { this with amount := uti } :: inside' ++ behind, this.amount) := by
          rw [List.cons_append, searchFrom, if_neg (by omega), if_pos heq]
          rfl
        have hinside : ∀ e ∈ { this with amount := uti } :: inside', e.time < till := by
          intro e he
          rcases List.mem_cons.mp he with rfl | he'
          · exact h.inside_lt this List.mem_cons_self
          · exact h.inside_lt e (List.mem_cons_of_mem _ he')
        rw [hsearch]
        simp only [Option.map_some, searchTill_append hinside, searchTill_behind h.behind_ge,
          lastAmount]
        cases behind <;> simp [startPart, endPart, resumed, heq]
      · have hsearch : searchFrom fromTime uti (this :: inside' ++ behind) =
            some ([⟨fromTime, uti⟩], this :: inside' ++ behind, this.amount) :=
          if_pos (by omega)
        rw [hsearch]
        simp only [Option.map_some, searchTill_append h.inside_lt, searchTill_behind h.behind_ge,
          lastAmount]
        cases behind <;> simp [startPart, endPart, resumed, heq]

theorem exists_parts (hd : Sorted d) (hlt : fromTime < till) :
    ∃ before inside behind, Parts d before inside behind fromTime till := by
  have happ := @utilizationFindTime_append fromTime d
  have hbefore := @utilizationFindTime_before fromTime d
  have hafter := @utilizationFindTime_after fromTime d hd
  cases hsplit : utilizationFindTime fromTime d with
  | mk before after =>
      rw [hsplit] at happ hbefore hafter
      have hd' := hd
      rw [← happ] at hd'
      have happ' := @utilizationFindTime_append till after
      have hinside := @utilizationFindTime_before till after
      have hbehind := @utilizationFindTime_after till after (List.pairwise_append.mp hd').2.1
      cases hsplit' : utilizationFindTime till after with
      | mk inside behind =>
          rw [hsplit'] at happ' hinside hbehind
          refine ⟨before, inside, behind, ?_, hd, hlt, hbefore, fun e he => hafter e ?_, hinside,
            hbehind⟩
          · rw [happ', happ]
          · rw [← happ']
            exact List.mem_append_left _ he

end Searches

namespace Parts
variable {d before inside behind : List Rde} {fromTime till t : ℕ} {uti v w : ℚ}
  (h : Parts d before inside behind fromTime till)
include h

theorem sorted_before : Sorted before := (List.pairwise_append.mp (h.eq ▸ h.sorted)).1

theorem sorted_behind : Sorted behind :=
  (List.pairwise_append.mp (List.pairwise_append.mp (h.eq ▸ h.sorted)).2.1).2.1

theorem mem_iff {P : Rde → Prop} : (∃ e ∈ d, P e) ↔
    (∃ e ∈ before, P e) ∨ (∃ e ∈ inside, P e) ∨ ∃ e ∈ behind, P e := by
  rw [h.eq]
  simp only [List.mem_append, or_and_right, exists_or]

theorem startPart_mem {e : Rde} (he : e ∈ startPart fromTime uti inside) : e.time = fromTime := by
  cases inside with
  | nil => rw [List.mem_singleton.mp he]
  | cons this rest =>
      rw [startPart] at he
      split_ifs at he with heq
      · exact absurd he List.not_mem_nil
      · rw [List.mem_singleton.mp he]

theorem endPart_ge : ∀ e ∈ endPart fromTime till uti inside behind, till ≤ e.time := by
  intro e he
  have hge := h.behind_ge
  cases behind with
  | nil => rw [List.mem_singleton.mp he]
  | cons next rest =>
      rw [endPart] at he
      split_ifs at he with heq
      · exact hge e he
      · rcases List.mem_cons.mp he with rfl | he'
        · exact le_rfl
        · exact hge e he'

theorem endPart_sorted : Sorted (endPart fromTime till uti inside behind) := by
  have hge := h.behind_ge
  have hs := h.sorted_behind
  cases behind with
  | nil => exact List.pairwise_singleton _ _
  | cons next rest =>
      rw [endPart]
      split_ifs with heq
      · exact hs
      · refine sorted_cons.mpr ⟨fun e he => ?_, hs⟩
        have hnext : till < next.time :=
          lt_of_le_of_ne (hge next List.mem_cons_self) (fun hne => heq hne.symm)
        rcases List.mem_cons.mp he with rfl | he'
        · exact hnext
        · exact hnext.trans ((sorted_cons.mp hs).1 e he')

theorem sorted_out : Sorted (before ++ (startPart fromTime uti inside ++
    endPart fromTime till uti inside behind)) := by
  have hlt := h.lt_till
  refine List.pairwise_append.mpr ⟨h.sorted_before, List.pairwise_append.mpr
    ⟨?_, h.endPart_sorted, fun a ha b hb => ?_⟩, fun a ha b hb => ?_⟩
  · cases inside with
    | nil => exact List.pairwise_singleton _ _
    | cons this rest =>
        rw [startPart]
        split_ifs
        · exact List.Pairwise.nil
        · exact List.pairwise_singleton _ _
  · have := h.startPart_mem ha
    have := h.endPart_ge b hb
    omega
  · have := h.before_lt a ha
    rcases List.mem_append.mp hb with hb | hb
    · have := h.startPart_mem hb
      omega
    · have := h.endPart_ge b hb
      omega

theorem eval_before (ht : t < fromTime) : eval 0 (before ++ (startPart fromTime uti inside ++
    endPart fromTime till uti inside behind)) t = eval 0 d t := by
  have hlt := h.lt_till
  rw [h.eq, eval_append_of_lt, eval_append_of_lt]
  · intro e he
    rcases List.mem_append.mp he with he | he
    · have := h.inside_ge e he
      omega
    · have := h.behind_ge e he
      omega
  · intro e he
    rcases List.mem_append.mp he with he | he
    · have := h.startPart_mem he
      omega
    · have := h.endPart_ge e he
      omega

theorem before_le (ht : fromTime ≤ t) : ∀ e ∈ before, e.time ≤ t :=
  fun e he => (h.before_lt e he).le.trans ht

theorem eval_inside (hge : fromTime ≤ t) (ht : t < till) :
    eval 0 (before ++ (startPart fromTime uti inside ++ endPart fromTime till uti inside behind))
      t = lastAmount (lastAmount 0 before) (startPart fromTime uti inside) := by
  rw [eval_append_of_le (h.before_le hge),
    eval_append_of_le (fun e he => (h.startPart_mem he).le.trans hge),
    eval_of_lt (fun e he => ht.trans_le (h.endPart_ge e he))]

theorem eval_behind (ht : till ≤ t) :
    eval 0 (before ++ (startPart fromTime uti inside ++ endPart fromTime till uti inside behind))
      t = eval (lastAmount (lastAmount 0 before) (startPart fromTime uti inside))
        (endPart fromTime till uti inside behind) t := by
  have hge : fromTime ≤ t := h.lt_till.le.trans ht
  rw [eval_append_of_le (h.before_le hge),
    eval_append_of_le (fun e he => (h.startPart_mem he).le.trans hge)]

theorem eval_behind_old (ht : till ≤ t) :
    eval 0 d t = eval (lastAmount (lastAmount 0 before) inside) behind t := by
  have hge : fromTime ≤ t := h.lt_till.le.trans ht
  rw [h.eq, eval_append_of_le (h.before_le hge),
    eval_append_of_le (fun e he => (h.inside_lt e he).le.trans ht)]

/-- The period is entered unless the entry of its start is removed again. -/
theorem start_iff : lastAmount (lastAmount 0 before) (startPart fromTime uti inside) = uti ↔
    (∀ e ∈ d, e.time ≠ fromTime) ∨ lastAmount 0 (d.filter (fun e => e.time < fromTime)) = uti := by
  have hlt := h.lt_till
  have hfilter : d.filter (fun e => e.time < fromTime) = before := by
    rw [h.eq, List.filter_append, List.filter_eq_self.mpr (by simpa using h.before_lt),
      List.filter_eq_nil_iff.mpr, List.append_nil]
    intro e he
    rcases List.mem_append.mp he with he | he
    · simpa using h.inside_ge e he
    · simpa using hlt.le.trans (h.behind_ge e he)
  have hnone : (∀ e ∈ d, e.time ≠ fromTime) ↔ ∀ e ∈ inside, e.time ≠ fromTime := by
    rw [← not_iff_not]
    push Not
    rw [h.mem_iff]
    constructor
    · rintro (⟨e, he, heq⟩ | hin | ⟨e, he, heq⟩)
      · have := h.before_lt e he
        omega
      · exact hin
      · have := h.behind_ge e he
        omega
    · exact fun hin => Or.inr (Or.inl hin)
  rw [hfilter, hnone]
  have hs : Sorted inside :=
    (List.pairwise_append.mp (List.pairwise_append.mp (h.eq ▸ h.sorted)).2.1).1
  cases inside with
  | nil => simp [startPart, lastAmount]
  | cons this rest =>
      have hge := h.inside_ge this List.mem_cons_self
      by_cases heq : this.time = fromTime
      · simp [startPart, lastAmount, heq]
      · have hafter : ∀ e ∈ this :: rest, e.time ≠ fromTime := by
          intro e he
          rcases List.mem_cons.mp he with rfl | he'
          · exact heq
          · have := (sorted_cons.mp hs).1 e he'
            omega
        simp only [startPart, if_neg heq, lastAmount, true_iff]
        exact Or.inl hafter

theorem resumed_iff {next : Rde} {rest : List Rde} (hbehind : behind = next :: rest)
    (hnext : till < next.time) :
    resumed fromTime uti next inside = lastAmount (lastAmount 0 before) inside ↔
      (∃ e ∈ d, fromTime < e.time ∧ e.time < till) ∨ (∃ e ∈ d, e.time = fromTime ∧ e.amount = uti) ∨
        (∀ e ∈ d, e.time < fromTime ∨ till < e.time) ∧
          ∀ e ∈ d.find? (fun e => till < e.time), e.amount = amountAt d fromTime := by
  have hlt := h.lt_till
  have hs := h.sorted
  have hlate : ∀ e ∈ behind, till < e.time := by
    intro e he
    have hsb := h.sorted_behind
    rw [hbehind] at he hsb
    rcases List.mem_cons.mp he with rfl | he'
    · exact hnext
    · exact hnext.trans ((sorted_cons.mp hsb).1 e he')
  -- only the entries of the period can lie in it
  have hbetween : (∃ e ∈ d, fromTime < e.time ∧ e.time < till) ↔
      ∃ e ∈ inside, fromTime < e.time := by
    rw [h.mem_iff]
    constructor
    · rintro (⟨e, he, hgt, -⟩ | ⟨e, he, hgt, -⟩ | ⟨e, he, -, hlt'⟩)
      · have := h.before_lt e he
        omega
      · exact ⟨e, he, hgt⟩
      · have := hlate e he
        omega
    · rintro ⟨e, he, hgt⟩
      exact Or.inr (Or.inl ⟨e, he, hgt, h.inside_lt e he⟩)
  have hat : (∃ e ∈ d, e.time = fromTime ∧ e.amount = uti) ↔
      ∃ e ∈ inside, e.time = fromTime ∧ e.amount = uti := by
    rw [h.mem_iff]
    constructor
    · rintro (⟨e, he, heq, -⟩ | hin | ⟨e, he, heq, -⟩)
      · have := h.before_lt e he
        omega
      · exact hin
      · have := hlate e he
        omega
    · exact fun hin => Or.inr (Or.inl hin)
  have hout : (∀ e ∈ d, e.time < fromTime ∨ till < e.time) ↔ inside = [] := by
    constructor
    · intro hall
      by_contra hne
      obtain ⟨e, he⟩ := List.exists_mem_of_ne_nil _ hne
      have := h.inside_ge e he
      have := h.inside_lt e he
      have := hall e (by rw [h.eq]; simp [he])
      omega
    · rintro rfl e he
      rw [h.eq, List.nil_append] at he
      rcases List.mem_append.mp he with he | he
      · exact Or.inl (h.before_lt e he)
      · exact Or.inr (hlate e he)
  rw [hbetween, hat, hout]
  cases inside with
  | nil =>
      have hfind : d.find? (fun e => till < e.time) = some next := by
        rw [h.eq, List.nil_append, List.find?_append, List.find?_eq_none.mpr, hbehind]
        · simp [hnext]
        · intro e he
          have := h.before_lt e he
          simp only [decide_eq_true_eq]
          omega
      have hnow : amountAt d fromTime = lastAmount 0 before := by
        rw [amountAt_eq_eval hs, h.eq, List.nil_append, eval_append_of_le (h.before_le le_rfl),
          eval_of_lt (fun e he => hlt.trans (hlate e he))]
      simp [hfind, hnow, resumed, lastAmount]
  | cons this rest' =>
      have hge := h.inside_ge this List.mem_cons_self
      have hsi : Sorted (this :: rest') :=
        (List.pairwise_append.mp (List.pairwise_append.mp (h.eq ▸ hs)).2.1).1
      have hrest : ∀ e ∈ rest', fromTime < e.time :=
        fun e he => hge.trans_lt ((sorted_cons.mp hsi).1 e he)
      by_cases heq : this.time = fromTime
      · simp only [resumed, if_pos heq, lastAmount]
        cases rest' with
        | nil =>
            simp only [lastAmount, List.mem_singleton, exists_eq_left, heq, lt_irrefl, false_or,
              true_and, reduceCtorEq, false_and, or_false]
            exact eq_comm
        | cons second rest' =>
            refine iff_of_true rfl (Or.inl ⟨second, by simp, hrest second List.mem_cons_self⟩)
      · simp only [resumed, if_neg heq, lastAmount, true_iff]
        exact Or.inl ⟨this, List.mem_cons_self, by omega⟩

theorem resume_iff : (∀ t, till ≤ t →
      eval v (endPart fromTime till uti inside behind) t =
        eval (lastAmount (lastAmount 0 before) inside) behind t) ↔
    (∃ e ∈ d, e.time = till) ∨ ((∀ e ∈ d, e.time < till) ∧ amountAt d till = 0) ∨
    ((∃ e ∈ d, till < e.time) ∧
      ((∃ e ∈ d, fromTime < e.time ∧ e.time < till) ∨ (∃ e ∈ d, e.time = fromTime ∧ e.amount = uti) ∨
        (∀ e ∈ d, e.time < fromTime ∨ till < e.time) ∧
          ∀ e ∈ d.find? (fun e => till < e.time), e.amount = amountAt d fromTime)) := by
  have hlt := h.lt_till
  have hold := amountAt_eq_eval (t := till) h.sorted
  rw [h.eval_behind_old le_rfl] at hold
  have hinside : ∀ e ∈ before ++ inside, e.time < till := by
    intro e he
    rcases List.mem_append.mp he with he | he
    · exact (h.before_lt e he).trans hlt
    · exact h.inside_lt e he
  have heq := h.eq
  rw [← List.append_assoc] at heq
  cases hcases : behind with
  | nil =>
      rw [hcases, List.append_nil] at heq
      rw [hcases, eval_nil] at hold
      rw [hold, heq]
      constructor
      · intro hall
        refine Or.inr (Or.inl ⟨hinside, ?_⟩)
        have := hall till le_rfl
        rw [endPart, eval_cons, if_neg (lt_irrefl _), eval_nil, eval_nil] at this
        exact this.symm
      · rintro (⟨e, he, htill⟩ | ⟨-, hzero⟩ | ⟨⟨e, he, htill⟩, -⟩) t ht
        · have := hinside e he
          omega
        · rw [endPart, eval_cons, if_neg (not_lt.mpr ht), eval_nil, eval_nil, hzero]
        · have := hinside e he
          omega
  | cons next rest =>
      have hnext := h.behind_ge next (by simp [hcases])
      have hmem : next ∈ d := by simp [heq, hcases]
      by_cases htill : next.time = till
      · refine iff_of_true (fun t ht => ?_) (Or.inl ⟨next, hmem, htill⟩)
        rw [endPart, if_pos htill, eval_cons, eval_cons, if_neg (by omega), if_neg (by omega)]
      · have hgt : till < next.time := by omega
        have hend : (∀ t, till ≤ t → eval v (endPart fromTime till uti inside (next :: rest)) t =
            eval (lastAmount (lastAmount 0 before) inside) (next :: rest) t) ↔
              resumed fromTime uti next inside = lastAmount (lastAmount 0 before) inside := by
          constructor
          · intro hall
            have := hall till le_rfl
            rwa [endPart, if_neg htill, eval_cons, if_neg (lt_irrefl _), eval_cons, if_pos hgt,
              eval_cons, if_pos hgt] at this
          · intro hcarried t ht
            rw [endPart, if_neg htill, eval_cons, if_neg (not_lt.mpr ht), hcarried]
        rw [hend, h.resumed_iff hcases hgt]
        constructor
        · exact fun hcarried => Or.inr (Or.inr ⟨⟨next, hmem, hgt⟩, hcarried⟩)
        · rintro (⟨e, he, htime⟩ | ⟨hall, -⟩ | ⟨-, hcarried⟩)
          · rw [heq] at he
            rcases List.mem_append.mp he with he | he
            · have := hinside e he
              omega
            · have hsb := h.sorted_behind
              rw [hcases] at he hsb
              rcases List.mem_cons.mp he with rfl | he'
              · exact absurd htime htill
              · have := (sorted_cons.mp hsb).1 e he'
                omega
          · have := hall next hmem
            omega
          · exact hcarried

end Parts

section Overlay
variable {d : List Rde} {fromTime till : ℕ} {uti : ℚ}

/-- `set_utilization` enters a period exactly when it finds no entry to remove at its start and
finds the amount to resume at its end. -/
theorem setUtilization_overlays_iff (hd : Sorted d) (hlt : fromTime < tillTime till)
    (huti : 0 < uti) : Overlays d fromTime (tillTime till) uti (setUtilization d fromTime till uti) ↔
      OverlayKept d fromTime (tillTime till) uti := by
  obtain ⟨before, inside, behind, h⟩ := exists_parts hd hlt
  rw [setUtilization_parts h huti]
  have hat : ∀ t, amountAt (before ++ (startPart fromTime uti inside ++
      endPart fromTime (tillTime till) uti inside behind)) t = eval 0 (before ++
        (startPart fromTime uti inside ++ endPart fromTime (tillTime till) uti inside behind)) t :=
    fun t => amountAt_eq_eval h.sorted_out
  constructor
  · intro hover
    refine ⟨h.start_iff.mp ?_, (h.resume_iff (v := lastAmount (lastAmount 0 before)
      (startPart fromTime uti inside))).mp (fun t ht => ?_)⟩
    · have hstart := hover.amountAt_eq fromTime
      rwa [hat, h.eval_inside le_rfl hlt, if_pos ⟨le_rfl, hlt⟩] at hstart
    · have hend := hover.amountAt_eq t
      rwa [hat, h.eval_behind ht, if_neg (by omega), amountAt_eq_eval hd, h.eval_behind_old ht]
        at hend
  · rintro ⟨hstart, hresume⟩
    refine ⟨h.sorted_out, fun t => ?_⟩
    rw [hat, amountAt_eq_eval hd]
    by_cases hin : fromTime ≤ t ∧ t < tillTime till
    · rw [if_pos hin, h.eval_inside hin.1 hin.2, h.start_iff.mpr hstart]
    · rw [if_neg hin]
      by_cases ht : t < fromTime
      · exact h.eval_before ht
      · have htill : tillTime till ≤ t := by omega
        rw [h.eval_behind htill, h.eval_behind_old htill, h.resume_iff.mpr hresume t htill]

/-- Every period ends behind its start, which is the end of the one before. -/
def PeriodsAscend : ℕ → List StateChange → Prop
  | _, [] => True
  | fromTime, change :: changes => fromTime < tillTime change.till ∧ PeriodsAscend change.till changes

/-- A job that ends with the period. -/
theorem endsWithPeriod_overlays : Overlays [⟨50, 2⟩, ⟨200, 0⟩] 100 (tillTime 200) 10
      (setUtilization [⟨50, 2⟩, ⟨200, 0⟩] 100 200 10) ↔
    OverlayKept [⟨50, 2⟩, ⟨200, 0⟩] 100 (tillTime 200) 10 :=
  setUtilization_overlays_iff (by simp [Sorted]) (by decide) (by norm_num)

/-- A job that is booked across the end of the period loses the rest of its booking. -/
theorem bookedAcross_lost : ¬ Overlays [⟨50, 2⟩, ⟨300, 0⟩] 100 (tillTime 200) 10
    (setUtilization [⟨50, 2⟩, ⟨300, 0⟩] 100 200 10) := by
  have hout : setUtilization [⟨50, 2⟩, ⟨300, 0⟩] 100 200 10 =
      [⟨50, 2⟩, ⟨100, 10⟩, ⟨200, 0⟩, ⟨300, 0⟩] := by
    norm_num [setUtilization, searchFrom, searchTill, tillTime]
  rw [hout]
  intro h
  have hlater := h.amountAt_eq 200
  norm_num [amountAt, tillTime] at hlater

end Overlay

end GridEngine
