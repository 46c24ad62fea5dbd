import GridEngine.GreatestFirst
import GridEngine.Utilization

/-!
# The queue end time iterator

A `sge_qeti_t` refers to the diagrams of the resources that a job needs. Each reference has a
cursor on one entry, and a step returns the latest time that a cursor stands on and moves every
cursor to the entries before that time.
-/

namespace GridEngine
open StepFunction

/-- A `QETI_Type` element. The reference `QETI_queue_end_next` is given as the entry it refers to
and those before it, latest first. -/
structure QetiRef where
  utilized : List Rde
  queueEndNext : List Rde
deriving DecidableEq, Repr

/-- A `sge_qeti_t`. -/
structure SgeQeti where
  crRefsPe : List QetiRef
  crRefsGlobal : List QetiRef
  crRefsHost : List QetiRef
  crRefsQueue : List QetiRef
deriving DecidableEq, Repr

/-- `sge_qeti_init_refs`. -/
def sgeQetiInitRefs (crefLp : List QetiRef) : List QetiRef :=
  crefLp.map (fun cr => { cr with queueEndNext := cr.utilized.reverse })

/-- `sge_qeti_max_end_time`. -/
def sgeQetiMaxEndTime (maxTime : ℕ) (crefLp : List QetiRef) : ℕ :=
  crefLp.foldl (fun tmpTime cr =>
    match cr.queueEndNext with
    | [] => tmpTime
    | ref :: _ => max tmpTime ref.time) maxTime

/-- The loop that goes back from one entry. -/
def prevUpTo (time : ℕ) : List Rde → List Rde
  | [] => []
  | ref :: earlier => if time < ref.time then prevUpTo time earlier else ref :: earlier

/-- `sge_qeti_switch_to_next`. The time is counted down as a machine word. -/
def sgeQetiSwitchToNext (time : ℕ) (crefLp : List QetiRef) : List QetiRef :=
  let time := wsub time 1
  crefLp.map (fun cr => { cr with queueEndNext := prevUpTo time cr.queueEndNext })

/-- `sge_qeti_next_before`. -/
def sgeQetiNextBefore (qeti : SgeQeti) (start : ℕ) : SgeQeti where
  crRefsPe := sgeQetiSwitchToNext start qeti.crRefsPe
  crRefsGlobal := sgeQetiSwitchToNext start qeti.crRefsGlobal
  crRefsHost := sgeQetiSwitchToNext start qeti.crRefsHost
  crRefsQueue := sgeQetiSwitchToNext start qeti.crRefsQueue

/-- `sge_qeti_next`. -/
def sgeQetiNext (qeti : SgeQeti) : ℕ × SgeQeti :=
  let endTime := sgeQetiMaxEndTime 0 qeti.crRefsPe
  let endTime := sgeQetiMaxEndTime endTime qeti.crRefsGlobal
  let endTime := sgeQetiMaxEndTime endTime qeti.crRefsHost
  let endTime := sgeQetiMaxEndTime endTime qeti.crRefsQueue
  (endTime,
    { crRefsPe := sgeQetiSwitchToNext endTime qeti.crRefsPe
      crRefsGlobal := sgeQetiSwitchToNext endTime qeti.crRefsGlobal
      crRefsHost := sgeQetiSwitchToNext endTime qeti.crRefsHost
      crRefsQueue := sgeQetiSwitchToNext endTime qeti.crRefsQueue })

/-- The references at the ends of their diagrams. -/
def sgeQetiInit (qeti : SgeQeti) : SgeQeti where
  crRefsPe := sgeQetiInitRefs qeti.crRefsPe
  crRefsGlobal := sgeQetiInitRefs qeti.crRefsGlobal
  crRefsHost := sgeQetiInitRefs qeti.crRefsHost
  crRefsQueue := sgeQetiInitRefs qeti.crRefsQueue

/-- `sge_qeti_first`, which goes on like `sge_qeti_next` when the references are set. -/
def sgeQetiFirst (qeti : SgeQeti) : ℕ × SgeQeti := sgeQetiNext (sgeQetiInit qeti)

/-- The results of further calls of `sge_qeti_next`. -/
def nextResults : ℕ → SgeQeti → List ℕ
  | 0, _ => []
  | n + 1, qeti => (sgeQetiNext qeti).1 :: nextResults n (sgeQetiNext qeti).2

/-- The results of `sge_qeti_first` and of further calls of `sge_qeti_next`. -/
def firstResults (n : ℕ) (qeti : SgeQeti) : List ℕ :=
  (sgeQetiFirst qeti).1 :: nextResults n (sgeQetiFirst qeti).2

/-- A call behind `sge_qeti_first`. -/
inductive QetiCall
  | next
  | nextBefore (start : ℕ)
deriving DecidableEq, Repr

/-- The times that calls pass, which are those they return or are given, and the iterator after
them. -/
def qetiRun : SgeQeti → List QetiCall → List ℕ × SgeQeti
  | qeti, [] => ([], qeti)
  | qeti, .next :: calls =>
      let (time, qeti) := sgeQetiNext qeti
      let (passed, qeti) := qetiRun qeti calls
      (time :: passed, qeti)
  | qeti, .nextBefore start :: calls =>
      let (passed, qeti) := qetiRun (sgeQetiNextBefore qeti start) calls
      (start :: passed, qeti)

namespace SgeQeti

def refs (qeti : SgeQeti) : List QetiRef :=
  qeti.crRefsPe ++ qeti.crRefsGlobal ++ qeti.crRefsHost ++ qeti.crRefsQueue

/-- The times of all diagrams. -/
def times (qeti : SgeQeti) : Finset ℕ :=
  (qeti.refs.flatMap (fun cr => cr.utilized.map Entry.time)).toFinset

/-- The times at the cursors and before them. -/
def remaining (qeti : SgeQeti) : Finset ℕ :=
  (qeti.refs.flatMap (fun cr => cr.queueEndNext.map Entry.time)).toFinset

end SgeQeti

/-- A diagram with ascending positive machine words as times. -/
structure DiagramTimes (d : List Rde) : Prop where
  sorted : Sorted d
  pos : ∀ e ∈ d, 0 < e.time
  word : ∀ e ∈ d, e.time < 2 ^ 32

/-- Every cursor stands on an entry of its diagram or in front of it. -/
structure QetiValid (qeti : SgeQeti) : Prop where
  diagrams : ∀ cr ∈ qeti.refs, DiagramTimes cr.utilized
  cursors : ∀ cr ∈ qeti.refs, cr.queueEndNext <:+ cr.utilized.reverse

section Steps
variable {qeti : SgeQeti} {cr : QetiRef} {l : List Rde} {e : Rde} {time start t m : ℕ}
  {crefLp : List QetiRef}

theorem prevUpTo_suffix : prevUpTo time l <:+ l := by
  induction l with
  | nil => exact List.suffix_rfl
  | cons ref earlier ih =>
      rw [prevUpTo]
      split_ifs with hlt
      · exact ih.trans (List.suffix_cons _ _)
      · exact List.suffix_rfl

/-- On descending times the loop keeps the entries that are not later. -/
theorem mem_prevUpTo (hdesc : l.Pairwise (fun a b => b.time < a.time)) :
    e ∈ prevUpTo time l ↔ e ∈ l ∧ e.time ≤ time := by
  induction l with
  | nil => simp [prevUpTo]
  | cons ref earlier ih =>
      obtain ⟨href, hearlier⟩ := List.pairwise_cons.mp hdesc
      rw [prevUpTo]
      split_ifs with hlt
      · rw [ih hearlier, List.mem_cons]
        constructor
        · rintro ⟨he, hle⟩
          exact ⟨Or.inr he, hle⟩
        · rintro ⟨rfl | he, hle⟩
          · omega
          · exact ⟨he, hle⟩
      · refine ⟨fun he => ⟨he, ?_⟩, And.left⟩
        rcases List.mem_cons.mp he with rfl | he'
        · omega
        · have := href e he'
          omega

theorem QetiValid.descending (h : QetiValid qeti) (hcr : cr ∈ qeti.refs) :
    cr.queueEndNext.Pairwise (fun a b => b.time < a.time) :=
  (List.pairwise_reverse.mpr (h.diagrams cr hcr).sorted).sublist (h.cursors cr hcr).sublist

theorem QetiValid.times_pos (h : QetiValid qeti) (hcr : cr ∈ qeti.refs)
    (he : e ∈ cr.queueEndNext) : 0 < e.time ∧ e.time < 2 ^ 32 := by
  have hmem := List.mem_reverse.mp ((h.cursors cr hcr).subset he)
  exact ⟨(h.diagrams cr hcr).pos e hmem, (h.diagrams cr hcr).word e hmem⟩

theorem mem_remaining :
    t ∈ qeti.remaining ↔ ∃ cr ∈ qeti.refs, ∃ e ∈ cr.queueEndNext, e.time = t := by
  simp [SgeQeti.remaining]

theorem mem_times : t ∈ qeti.times ↔ ∃ cr ∈ qeti.refs, ∃ e ∈ cr.utilized, e.time = t := by
  simp [SgeQeti.times]

theorem refs_nextBefore : (sgeQetiNextBefore qeti start).refs = qeti.refs.map
    (fun cr => { cr with queueEndNext := prevUpTo (wsub start 1) cr.queueEndNext }) := by
  simp only [SgeQeti.refs, sgeQetiNextBefore, sgeQetiSwitchToNext, List.map_append]

theorem sgeQetiNext_snd : (sgeQetiNext qeti).2 = sgeQetiNextBefore qeti (sgeQetiNext qeti).1 := rfl

theorem QetiValid.nextBefore (h : QetiValid qeti) : QetiValid (sgeQetiNextBefore qeti start) := by
  refine ⟨fun cr hcr => ?_, fun cr hcr => ?_⟩
  · rw [refs_nextBefore] at hcr
    obtain ⟨cr', hcr', rfl⟩ := List.mem_map.mp hcr
    exact h.diagrams cr' hcr'
  · rw [refs_nextBefore] at hcr
    obtain ⟨cr', hcr', rfl⟩ := List.mem_map.mp hcr
    exact prevUpTo_suffix.trans (h.cursors cr' hcr')

theorem mem_remaining_nextBefore (h : QetiValid qeti) : t ∈ (sgeQetiNextBefore qeti start).remaining ↔
    t ∈ qeti.remaining ∧ t ≤ wsub start 1 := by
  simp only [mem_remaining, refs_nextBefore, List.mem_map, exists_exists_and_eq_and]
  constructor
  · rintro ⟨cr, hcr, e, he, rfl⟩
    obtain ⟨he', hle⟩ := (mem_prevUpTo (h.descending hcr)).mp he
    exact ⟨⟨cr, hcr, e, he', rfl⟩, hle⟩
  · rintro ⟨⟨cr, hcr, e, he, rfl⟩, hle⟩
    exact ⟨cr, hcr, e, (mem_prevUpTo (h.descending hcr)).mpr ⟨he, hle⟩, rfl⟩

theorem wsub_one (hpos : 0 < start) (hword : start < 2 ^ 32) : wsub start 1 = start - 1 := by
  unfold wsub
  omega

/-- `sge_qeti_next_before` leaves the times before the start. -/
theorem remaining_nextBefore (h : QetiValid qeti) (hpos : 0 < start) (hword : start < 2 ^ 32) :
    (sgeQetiNextBefore qeti start).remaining = GreatestFirst.below qeti.remaining [start] := by
  ext t
  rw [mem_remaining_nextBefore h, GreatestFirst.mem_below, wsub_one hpos hword]
  simp only [List.mem_singleton, forall_eq]
  exact and_congr_right fun _ => by omega

theorem maxEndTime_cons : sgeQetiMaxEndTime m (cr :: crefLp) = sgeQetiMaxEndTime
    (match cr.queueEndNext with
      | [] => m
      | ref :: _ => max m ref.time) crefLp := rfl

theorem maxEndTime_append {crefLp' : List QetiRef} : sgeQetiMaxEndTime m (crefLp ++ crefLp') =
    sgeQetiMaxEndTime (sgeQetiMaxEndTime m crefLp) crefLp' := List.foldl_append

theorem maxEndTime_cases : sgeQetiMaxEndTime m crefLp = m ∨
    ∃ cr ∈ crefLp, ∃ e ∈ cr.queueEndNext, sgeQetiMaxEndTime m crefLp = e.time := by
  induction crefLp generalizing m with
  | nil => exact Or.inl rfl
  | cons cr rest ih =>
      rw [maxEndTime_cons]
      cases hnext : cr.queueEndNext with
      | nil =>
          rcases ih (m := m) with heq | ⟨cr', hcr', e, he, heq⟩
          · exact Or.inl heq
          · exact Or.inr ⟨cr', List.mem_cons_of_mem _ hcr', e, he, heq⟩
      | cons ref earlier =>
          rcases ih (m := max m ref.time) with heq | ⟨cr', hcr', e, he, heq⟩
          · rcases max_choice m ref.time with hm | hm
            · exact Or.inl (heq.trans hm)
            · exact Or.inr ⟨cr, List.mem_cons_self, ref, by simp [hnext], heq.trans hm⟩
          · exact Or.inr ⟨cr', List.mem_cons_of_mem _ hcr', e, he, heq⟩

theorem le_maxEndTime : m ≤ sgeQetiMaxEndTime m crefLp := by
  induction crefLp generalizing m with
  | nil => exact le_rfl
  | cons cr rest ih =>
      rw [maxEndTime_cons]
      refine le_trans ?_ ih
      cases cr.queueEndNext with
      | nil => exact le_rfl
      | cons ref earlier => exact le_max_left _ _

theorem time_le_maxEndTime
    (hdesc : ∀ cr ∈ crefLp, cr.queueEndNext.Pairwise (fun a b => b.time < a.time))
    (hcr : cr ∈ crefLp) (he : e ∈ cr.queueEndNext) : e.time ≤ sgeQetiMaxEndTime m crefLp := by
  induction crefLp generalizing m with
  | nil => exact absurd hcr List.not_mem_nil
  | cons cr' rest ih =>
      rw [maxEndTime_cons]
      rcases List.mem_cons.mp hcr with rfl | hcr'
      · refine le_trans ?_ le_maxEndTime
        have hd := hdesc cr List.mem_cons_self
        cases hnext : cr.queueEndNext with
        | nil =>
            rw [hnext] at he
            exact absurd he List.not_mem_nil
        | cons ref earlier =>
            rw [hnext] at he hd
            refine le_trans ?_ (le_max_right _ _)
            rcases List.mem_cons.mp he with rfl | he'
            · exact le_rfl
            · exact ((List.pairwise_cons.mp hd).1 e he').le
      · exact ih (fun cr hcr => hdesc cr (List.mem_cons_of_mem _ hcr)) hcr'

theorem sgeQetiNext_fst : (sgeQetiNext qeti).1 = sgeQetiMaxEndTime 0 qeti.refs := by
  simp only [SgeQeti.refs, maxEndTime_append]
  rfl

/-- `sge_qeti_next` returns the latest remaining time. -/
theorem sgeQetiNext_eq_sup (h : QetiValid qeti) :
    (sgeQetiNext qeti).1 = qeti.remaining.sup id := by
  rw [sgeQetiNext_fst]
  apply le_antisymm
  · rcases @maxEndTime_cases 0 qeti.refs with heq | ⟨cr, hcr, e, he, heq⟩
    · rw [heq]
      exact Nat.zero_le _
    · rw [heq]
      exact Finset.le_sup (f := id) (mem_remaining.mpr ⟨cr, hcr, e, he, rfl⟩)
  · refine Finset.sup_le fun t ht => ?_
    obtain ⟨cr, hcr, e, he, rfl⟩ := mem_remaining.mp ht
    exact time_le_maxEndTime (fun cr hcr => h.descending hcr) hcr he

theorem QetiValid.next (h : QetiValid qeti) : QetiValid (sgeQetiNext qeti).2 := by
  rw [sgeQetiNext_snd]
  exact h.nextBefore

/-- `sge_qeti_next` leaves the times before the one it returns. -/
theorem remaining_next (h : QetiValid qeti) : (sgeQetiNext qeti).2.remaining =
    GreatestFirst.below qeti.remaining [(sgeQetiNext qeti).1] := by
  have hsup := sgeQetiNext_eq_sup h
  rw [sgeQetiNext_snd]
  rcases qeti.remaining.eq_empty_or_nonempty with hempty | hne
  · ext t
    rw [mem_remaining_nextBefore h, GreatestFirst.mem_below, hempty]
    simp
  · have hmem := GreatestFirst.sup_mem hne
    rw [← hsup] at hmem
    obtain ⟨cr, hcr, e, he, heq⟩ := mem_remaining.mp hmem
    have hpos := h.times_pos hcr he
    rw [heq] at hpos
    exact remaining_nextBefore h hpos.1 hpos.2

theorem nextResults_eq_taken {n : ℕ} (h : QetiValid qeti) :
    nextResults n qeti = GreatestFirst.taken n qeti.remaining := by
  induction n generalizing qeti with
  | zero => rfl
  | succ n ih =>
      rw [nextResults, GreatestFirst.taken, ih h.next, remaining_next h, sgeQetiNext_eq_sup h,
        GreatestFirst.filter_lt_eq_below]

theorem remaining_qetiRun {calls : List QetiCall} (h : QetiValid qeti)
    (hcalls : ∀ s, .nextBefore s ∈ calls → 0 < s ∧ s < 2 ^ 32) :
    QetiValid (qetiRun qeti calls).2 ∧ (qetiRun qeti calls).2.remaining =
      GreatestFirst.below qeti.remaining (qetiRun qeti calls).1 := by
  induction calls generalizing qeti with
  | nil =>
      refine ⟨h, ?_⟩
      ext t
      simp [qetiRun, GreatestFirst.mem_below]
  | cons call calls ih =>
      have hcalls' : ∀ s, .nextBefore s ∈ calls → 0 < s ∧ s < 2 ^ 32 :=
        fun s hs => hcalls s (List.mem_cons_of_mem _ hs)
      cases call with
      | next =>
          obtain ⟨hvalid, hrem⟩ := ih h.next hcalls'
          refine ⟨hvalid, ?_⟩
          rw [remaining_next h, GreatestFirst.below_below] at hrem
          exact hrem
      | nextBefore start =>
          obtain ⟨hpos, hword⟩ := hcalls start List.mem_cons_self
          obtain ⟨hvalid, hrem⟩ := ih h.nextBefore hcalls'
          refine ⟨hvalid, ?_⟩
          rw [remaining_nextBefore h hpos hword, GreatestFirst.below_below] at hrem
          exact hrem

end Steps

section Iteration
variable {qeti : SgeQeti}

theorem refs_init : (sgeQetiInit qeti).refs = qeti.refs.map
    (fun cr => { cr with queueEndNext := cr.utilized.reverse }) := by
  simp only [SgeQeti.refs, sgeQetiInit, sgeQetiInitRefs, List.map_append]

theorem qetiValid_init (hdiagrams : ∀ cr ∈ qeti.refs, DiagramTimes cr.utilized) :
    QetiValid (sgeQetiInit qeti) := by
  refine ⟨fun cr hcr => ?_, fun cr hcr => ?_⟩
  · rw [refs_init] at hcr
    obtain ⟨cr', hcr', rfl⟩ := List.mem_map.mp hcr
    exact hdiagrams cr' hcr'
  · rw [refs_init] at hcr
    obtain ⟨cr', hcr', rfl⟩ := List.mem_map.mp hcr
    exact List.suffix_rfl

theorem remaining_init : (sgeQetiInit qeti).remaining = qeti.times := by
  ext t
  simp [mem_remaining, mem_times, refs_init]

/-- What the calls of an iterator return. -/
structure QetiIterates (qeti : SgeQeti) : Prop where
  descending : ∃ l : List ℕ, l.Pairwise (· > ·) ∧ (∀ t, t ∈ l ↔ t ∈ qeti.times) ∧
    ∀ n, firstResults n qeti = (l ++ List.replicate (n + 1) 0).take (n + 1)
  before : ∀ calls start, (∀ s, .nextBefore s ∈ calls → 0 < s ∧ s < 2 ^ 32) → 0 < start →
    start < 2 ^ 32 →
    (sgeQetiNext (sgeQetiNextBefore (qetiRun (sgeQetiFirst qeti).2 calls).2 start)).1 =
      ((GreatestFirst.below qeti.times
        ((sgeQetiFirst qeti).1 :: (qetiRun (sgeQetiFirst qeti).2 calls).1)).filter
          (fun t => t < start)).sup id

/-- The iterator over any diagrams, wherever its cursors stood. -/
theorem sgeQeti_iterates (hdiagrams : ∀ cr ∈ qeti.refs, DiagramTimes cr.utilized) :
    QetiIterates qeti := by
  have hvalid := qetiValid_init hdiagrams
  constructor
  · obtain ⟨l, hdesc, hl, htaken⟩ := @GreatestFirst.taken_eq ℕ _ qeti.times _
    refine ⟨l, hdesc, hl, fun n => ?_⟩
    have hresults : firstResults n qeti = nextResults (n + 1) (sgeQetiInit qeti) := rfl
    rw [hresults, nextResults_eq_taken hvalid, remaining_init, htaken]
    rfl
  · intro calls start hcalls hpos hword
    obtain ⟨hvalid', hrem⟩ := remaining_qetiRun hvalid.next hcalls
    have hfirst : sgeQetiFirst qeti = sgeQetiNext (sgeQetiInit qeti) := rfl
    rw [hfirst, sgeQetiNext_eq_sup hvalid'.nextBefore, remaining_nextBefore hvalid' hpos hword, hrem,
      remaining_next hvalid, remaining_init, GreatestFirst.below_below, GreatestFirst.below_below,
      GreatestFirst.filter_lt_eq_below, GreatestFirst.below_below]
    rfl

/-- Three diagrams, one of them empty, that share a time. -/
def sharedTimes : SgeQeti where
  crRefsPe := [⟨[⟨800, 4⟩, ⟨1000, 0⟩], []⟩]
  crRefsGlobal := [⟨[], []⟩]
  crRefsHost := []
  crRefsQueue := [⟨[⟨700, 1⟩, ⟨1000, 2⟩, ⟨1200, 0⟩], []⟩]

theorem sharedTimes_iterates : QetiIterates sharedTimes := by
  apply sgeQeti_iterates
  intro cr hcr
  simp only [SgeQeti.refs, sharedTimes, List.cons_append, List.nil_append, List.mem_cons,
    List.not_mem_nil, or_false] at hcr
  rcases hcr with rfl | rfl | rfl <;> exact ⟨by simp [Sorted], by simp, by simp⟩

end Iteration

end GridEngine
