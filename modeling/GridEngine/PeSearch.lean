import GridEngine.PeSlots
import Mathlib.Data.List.GetD

/-!
# Searching the largest slot amount

The candidate amounts of a parallel environment stand in an ascending array. They are tried in one
of three orders, and the last amount that could be assigned is kept.
-/

namespace GridEngine

/-- `dispatch_t`. -/
inductive DispatchT
  | ok
  | notAtTime
  | missingAttr
  | never
  | neverCat
  | neverJob
deriving DecidableEq, Repr

/-- `schedd_pe_algorithm` as `sconf_best_pe_alg` returns it. -/
inductive ScheddPeAlgorithm
  | lowFirst
  | highFirst
  | binary
deriving DecidableEq, Repr

/-- The slots, start and grant of a `sge_assignment_t`. `gdil` tells whether it has a list of granted
queues. -/
structure PeAssignment where
  slots : ℕ
  start : ℕ
  gdil : Bool
  softViolations : ℕ
deriving DecidableEq, Repr

/-- The assignments of a search and the result of its last attempt. -/
structure SearchState where
  best : PeAssignment
  tmp : PeAssignment
  result : DispatchT
deriving DecidableEq, Repr

/-- The search starts from a copy of the assignment without its granted queues. -/
def SearchState.start (best : PeAssignment) : SearchState where
  best := best
  tmp := { best with gdil := false }
  result := .neverCat

/-- What `parallel_assignment` finds for a slot amount, with the soft violations of the assignment. -/
abbrev AssignSlots := ℕ → DispatchT × ℕ

section Model
variable (assign : AssignSlots)

/-- Tries a slot amount. An assignment that is found moves to `best`. -/
def trySlots (slots : ℕ) (st : SearchState) : SearchState :=
  let tmp := { st.tmp with slots := slots }
  match assign slots with
  | (.ok, softViolations) =>
      let tmp := { tmp with softViolations := softViolations }
      { best := { tmp with gdil := true }, tmp := { tmp with gdil := false }, result := .ok }
  | (result, _) => { st with tmp := tmp, result := result }

/-- The binary search. -/
def binaryLoop (posiblePeSlots : List ℕ) (min max : ℤ) (st : SearchState) : SearchState :=
  let current := (min + max) / 2
  let st := trySlots assign (posiblePeSlots.getD current.toNat 0) st
  if st.result = .ok then
    if current + 1 ≤ max ∧ max ≠ -1 then binaryLoop posiblePeSlots (current + 1) max st else st
  else
    if min ≤ current - 1 ∧ current - 1 ≠ -1 then binaryLoop posiblePeSlots min (current - 1) st
    else st
termination_by (max + 1 - min).toNat

/-- The search that begins with the lowest amount. -/
def lowFirstLoop : List ℕ → SearchState → SearchState
  | [], st => st
  | slots :: posiblePeSlots, st =>
      let st := trySlots assign slots st
      if st.result ≠ .ok then st else lowFirstLoop posiblePeSlots st

/-- The search over the amounts from the highest one on. -/
def highFirstLoop : List ℕ → SearchState → SearchState
  | [], st => st
  | slots :: posiblePeSlots, st =>
      let st := trySlots assign slots st
      if st.result = .ok then st else highFirstLoop posiblePeSlots st

/-- The search of `parallel_maximize_slots_pe` on its array. -/
def searchSlots (alg : ScheddPeAlgorithm) (posiblePeSlots : List ℕ) (st : SearchState) :
    SearchState :=
  match alg with
  | .binary => binaryLoop assign posiblePeSlots 0 (posiblePeSlots.length - 1) st
  | .lowFirst => lowFirstLoop assign posiblePeSlots st
  | .highFirst => highFirstLoop assign posiblePeSlots.reverse st

/-- `parallel_maximize_slots_pe`: the result, the assignment and the cache of the category. -/
def parallelMaximizeSlotsPe (alg : ScheddPeAlgorithm) (pe : ParallelEnvironment)
    (peRange : List Range) (cache : Option PeJobSlots) (best : PeAssignment) :
    DispatchT × PeAssignment × Option PeJobSlots :=
  if best.gdil ∧ best.slots = pe.slots then (.ok, best, cache)
  else match startMaximize pe peRange ⟨best.slots, best.gdil⟩ cache with
    | (none, cache) => (.neverCat, best, cache)
    | (some [], cache) => (.neverCat, best, cache)
    | (some posiblePeSlots, cache) =>
        let st := searchSlots assign alg posiblePeSlots (.start best)
        (if st.best.gdil then .ok else st.result, st.best, cache)

end Model

section Search
variable {assign : AssignSlots} {array : List ℕ} {st : SearchState} {s t : ℕ}

/-- The slot amount can be assigned. -/
def Feasible (assign : AssignSlots) (slots : ℕ) : Prop := (assign slots).1 = .ok

instance : DecidablePred (Feasible assign) := fun _ => inferInstanceAs (Decidable (_ = _))

/-- The assignment of a slot amount. -/
def assigned (assign : AssignSlots) (start slots : ℕ) : PeAssignment where
  slots := slots
  start := start
  gdil := true
  softViolations := (assign slots).2

theorem trySlots_of_feasible (h : Feasible assign s) :
    (trySlots assign s st).result = .ok ∧
      (trySlots assign s st).best = assigned assign st.tmp.start s ∧
      (trySlots assign s st).tmp.start = st.tmp.start := by
  rw [Feasible] at h
  rw [trySlots]
  generalize hassign : assign s = p at h
  obtain ⟨result, violations⟩ := p
  obtain rfl : result = .ok := h
  simp [assigned, hassign]

theorem trySlots_of_not_feasible (h : ¬ Feasible assign s) :
    (trySlots assign s st).result ≠ .ok ∧ (trySlots assign s st).best = st.best ∧
      (trySlots assign s st).tmp.start = st.tmp.start := by
  rw [Feasible] at h
  rw [trySlots]
  generalize hassign : assign s = p at h
  obtain ⟨result, violations⟩ := p
  cases result with
  | ok => exact absurd rfl h
  | _ => simp

/-- The search keeps the largest amount of the array that can be assigned, or finds none. -/
structure FindsLargest (assign : AssignSlots) (array : List ℕ) (st st' : SearchState) : Prop where
  found : ∀ s, IsGreatest {s | s ∈ array ∧ Feasible assign s} s →
    st'.best = assigned assign st.tmp.start s
  none : (∀ s ∈ array, ¬ Feasible assign s) → st'.best = st.best ∧ (array ≠ [] → st'.result ≠ .ok)

/-- With an amount of the array the smaller ones can be assigned as well. -/
def DownwardClosed (assign : AssignSlots) (array : List ℕ) : Prop :=
  ∀ s ∈ array, ∀ t ∈ array, s ≤ t → Feasible assign t → Feasible assign s

theorem DownwardClosed.subset {array' : List ℕ} (h : DownwardClosed assign array)
    (hsub : array' ⊆ array) : DownwardClosed assign array' :=
  fun s hs t ht => h s (hsub hs) t (hsub ht)

theorem lowFirstLoop_findsLargest (hsorted : array.Pairwise (· < ·))
    (hdown : DownwardClosed assign array) :
    FindsLargest assign array st (lowFirstLoop assign array st) := by
  induction array generalizing st with
  | nil =>
      constructor
      · intro s hs
        exact absurd hs.1.1 (List.not_mem_nil)
      · intro _
        exact ⟨rfl, fun hne => absurd rfl hne⟩
  | cons first array ih =>
      obtain ⟨hfirst, hsorted⟩ := List.pairwise_cons.mp hsorted
      have hrest := hdown.subset (List.subset_cons_self first array)
      rw [lowFirstLoop]
      by_cases hfeasible : Feasible assign first
      · obtain ⟨hresult, hbest, hstart⟩ := @trySlots_of_feasible assign st first hfeasible
        simp only [hresult, ne_eq, not_true_eq_false, if_false]
        have hspec := @ih (trySlots assign first st) hsorted hrest
        constructor
        · intro s hs
          by_cases hmem : s ∈ array
          · rw [hspec.found s ⟨⟨hmem, hs.1.2⟩, fun t ht =>
              hs.2 ⟨List.mem_cons_of_mem first ht.1, ht.2⟩⟩, hstart]
          · obtain rfl : s = first := (List.mem_cons.mp hs.1.1).resolve_right hmem
            have hnone : ∀ t ∈ array, ¬ Feasible assign t := fun t ht hfeas =>
              absurd (hs.2 ⟨List.mem_cons_of_mem s ht, hfeas⟩) (Nat.not_le.mpr (hfirst t ht))
            rw [(hspec.none hnone).1, hbest]
        · intro hnone
          exact absurd hfeasible (hnone first List.mem_cons_self)
      · obtain ⟨hresult, hbest, -⟩ := @trySlots_of_not_feasible assign st first hfeasible
        simp only [ne_eq, hresult, not_false_eq_true, if_true]
        constructor
        · intro s hs
          refine absurd (hdown first List.mem_cons_self s hs.1.1 ?_ hs.1.2) hfeasible
          rcases List.mem_cons.mp hs.1.1 with rfl | hmem
          · exact le_rfl
          · exact (hfirst s hmem).le
        · intro _
          exact ⟨hbest, fun _ => hresult⟩

theorem highFirstLoop_findsLargest (hsorted : array.Pairwise (· > ·)) :
    FindsLargest assign array st (highFirstLoop assign array st) := by
  induction array generalizing st with
  | nil =>
      constructor
      · intro s hs
        exact absurd hs.1.1 (List.not_mem_nil)
      · intro _
        exact ⟨rfl, fun hne => absurd rfl hne⟩
  | cons first array ih =>
      obtain ⟨hfirst, hsorted⟩ := List.pairwise_cons.mp hsorted
      rw [highFirstLoop]
      by_cases hfeasible : Feasible assign first
      · obtain ⟨hresult, hbest, -⟩ := @trySlots_of_feasible assign st first hfeasible
        simp only [hresult, if_true]
        constructor
        · intro s hs
          have hle : first ≤ s := hs.2 ⟨List.mem_cons_self, hfeasible⟩
          rcases List.mem_cons.mp hs.1.1 with rfl | hmem
          · exact hbest
          · exact absurd hle (Nat.not_le.mpr (hfirst s hmem))
        · intro hnone
          exact absurd hfeasible (hnone first List.mem_cons_self)
      · obtain ⟨hresult, hbest, hstart⟩ := @trySlots_of_not_feasible assign st first hfeasible
        simp only [hresult, if_false]
        have hspec := @ih (trySlots assign first st) hsorted
        constructor
        · intro s hs
          have hmem : s ∈ array := (List.mem_cons.mp hs.1.1).resolve_left fun heq =>
            hfeasible (heq ▸ hs.1.2)
          rw [hspec.found s ⟨⟨hmem, hs.1.2⟩, fun t ht =>
            hs.2 ⟨List.mem_cons_of_mem first ht.1, ht.2⟩⟩, hstart]
        · intro hnone
          obtain ⟨hsame, hlast⟩ := hspec.none fun t ht => hnone t (List.mem_cons_of_mem first ht)
          refine ⟨hsame.trans hbest, fun _ => ?_⟩
          cases array with
          | nil => exact hresult
          | cons second array => exact hlast (List.cons_ne_nil _ _)

/-- The amounts below a place can be assigned, and the others cannot. -/
def CutsAt (assign : AssignSlots) (array : List ℕ) (k : ℕ) : Prop :=
  k ≤ array.length ∧ ∀ i < array.length, Feasible assign (array.getD i 0) ↔ i < k

/-- The assignment that is kept when the amounts below a place were found to be possible. -/
def keptAt (assign : AssignSlots) (array : List ℕ) (b : PeAssignment) (start : ℕ) :
    ℕ → PeAssignment
  | 0 => b
  | k + 1 => assigned assign start (array.getD k 0)

/-- The binary search between two places of an array that is cut somewhere in between. -/
theorem binaryLoop_cut {b : PeAssignment} {start lo hi k : ℕ} (hcut : CutsAt assign array k)
    (hlo : lo ≤ k) (hhi : k ≤ hi) (hlt : lo < hi) (hlen : hi ≤ array.length)
    (hbest : st.best = keptAt assign array b start lo) (hstart : st.tmp.start = start) :
    (binaryLoop assign array lo (hi - 1) st).best = keptAt assign array b start k ∧
      (k = 0 → (binaryLoop assign array lo (hi - 1) st).result ≠ .ok) := by
  induction hwidth : hi - lo using Nat.strong_induction_on generalizing lo hi st with
  | h width ih =>
      have hcurrent : ((lo : ℤ) + (hi - 1)) / 2 = ((lo + hi - 1) / 2 : ℕ) := by omega
      rw [binaryLoop, hcurrent, Int.toNat_natCast]
      generalize hmid : (lo + hi - 1) / 2 = mid
      have hiff := hcut.2 mid (by omega)
      by_cases hfeasible : Feasible assign (array.getD mid 0)
      · have hk : mid < k := hiff.mp hfeasible
        obtain ⟨hresult, hmidBest, hmidStart⟩ :=
          @trySlots_of_feasible assign st (array.getD mid 0) hfeasible
        simp only [hresult, if_true]
        by_cases hgo : mid + 1 < hi
        · rw [if_pos (by omega)]
          exact @ih (hi - (mid + 1)) (by omega) (trySlots assign (array.getD mid 0) st) (mid + 1) hi
            hk hhi hgo hlen (by rw [hmidBest, hstart]; rfl) (by rw [hmidStart, hstart]) rfl
        · rw [if_neg (by omega)]
          obtain rfl : k = mid + 1 := by omega
          exact ⟨by rw [hmidBest, hstart]; rfl, fun h => absurd h (Nat.succ_ne_zero mid)⟩
      · have hk : k ≤ mid := Nat.not_lt.mp fun h => hfeasible (hiff.mpr h)
        obtain ⟨hresult, hmidBest, hmidStart⟩ :=
          @trySlots_of_not_feasible assign st (array.getD mid 0) hfeasible
        simp only [hresult, if_false]
        by_cases hgo : lo < mid
        · rw [if_pos (by omega)]
          exact @ih (mid - lo) (by omega) (trySlots assign (array.getD mid 0) st) lo mid
            hlo hk hgo (by omega) (by rw [hmidBest, hbest]) (by rw [hmidStart, hstart]) rfl
        · rw [if_neg (by omega)]
          obtain rfl : k = lo := by omega
          exact ⟨by rw [hmidBest, hbest], fun _ => hresult⟩

theorem exists_cut (hsorted : array.Pairwise (· < ·)) (hdown : DownwardClosed assign array) :
    ∃ k, CutsAt assign array k := by
  induction array with
  | nil => exact ⟨0, le_rfl, fun i hi => absurd hi (Nat.not_lt_zero i)⟩
  | cons first array ih =>
      obtain ⟨hfirst, hsorted⟩ := List.pairwise_cons.mp hsorted
      by_cases hfeasible : Feasible assign first
      · obtain ⟨k, hk, hcut⟩ := ih hsorted (hdown.subset (List.subset_cons_self first array))
        refine ⟨k + 1, Nat.succ_le_succ hk, fun i hi => ?_⟩
        cases i with
        | zero => exact iff_of_true hfeasible (Nat.succ_pos k)
        | succ i => exact (hcut i (Nat.lt_of_succ_lt_succ hi)).trans (Nat.succ_lt_succ_iff).symm
      · refine ⟨0, Nat.zero_le _, fun i hi => iff_of_false (fun hi' => hfeasible ?_) (Nat.not_lt_zero i)⟩
        have hmem : (first :: array).getD i 0 ∈ first :: array := by
          rw [List.getD_eq_getElem _ _ hi]
          exact List.getElem_mem hi
        refine hdown first List.mem_cons_self _ hmem ?_ hi'
        rcases List.mem_cons.mp hmem with heq | hrest
        · exact heq.ge
        · exact (hfirst _ hrest).le

theorem CutsAt.feasible_iff {k : ℕ} (h : CutsAt assign array k) :
    s ∈ array ∧ Feasible assign s ↔ ∃ i < k, array.getD i 0 = s := by
  constructor
  · rintro ⟨hmem, hfeasible⟩
    obtain ⟨i, hi, rfl⟩ := List.mem_iff_getElem.mp hmem
    have hget : array.getD i 0 = array[i] := List.getD_eq_getElem _ _ hi
    exact ⟨i, (h.2 i hi).mp (by rwa [hget]), hget⟩
  · rintro ⟨i, hi, rfl⟩
    have hlen : i < array.length := hi.trans_le h.1
    refine ⟨?_, (h.2 i hlen).mpr hi⟩
    rw [List.getD_eq_getElem _ _ hlen]
    exact List.getElem_mem hlen

theorem binaryLoop_findsLargest (hsorted : array.Pairwise (· < ·))
    (hdown : DownwardClosed assign array) (hne : array ≠ []) :
    FindsLargest assign array st (binaryLoop assign array 0 (array.length - 1) st) := by
  obtain ⟨k, hcut⟩ := exists_cut hsorted hdown
  obtain ⟨hbest, hresult⟩ := @binaryLoop_cut assign array st st.best st.tmp.start 0 array.length k
    hcut (Nat.zero_le k) hcut.1 (List.length_pos_of_ne_nil hne) le_rfl rfl rfl
  constructor
  · intro s hs
    obtain ⟨i, hi, rfl⟩ := hcut.feasible_iff.mp hs.1
    obtain ⟨j, rfl⟩ : ∃ j, k = j + 1 := ⟨k - 1, by omega⟩
    have hj : j < array.length := hcut.1
    have hle : array.getD j 0 ≤ array.getD i 0 :=
      hs.2 (hcut.feasible_iff.mpr ⟨j, Nat.lt_succ_self j, rfl⟩)
    have hij : i = j := by
      by_contra hij
      have hlt : i < j := by omega
      have := List.pairwise_iff_getElem.mp hsorted i j (hlt.trans hj) hj hlt
      rw [List.getD_eq_getElem _ _ hj, List.getD_eq_getElem _ _ (hlt.trans hj)] at hle
      omega
    subst hij
    exact hbest
  · intro hnone
    have hk : k = 0 := by
      by_contra hk
      obtain ⟨hmem, hfeasible⟩ := hcut.feasible_iff.mpr ⟨0, Nat.pos_of_ne_zero hk, rfl⟩
      exact hnone _ hmem hfeasible
    subst hk
    exact ⟨hbest, fun _ => hresult rfl⟩

theorem searchSlots_findsLargest (alg : ScheddPeAlgorithm) (hsorted : array.Pairwise (· < ·))
    (hdown : DownwardClosed assign array) (hne : array ≠ []) :
    FindsLargest assign array st (searchSlots assign alg array st) := by
  cases alg with
  | lowFirst => exact lowFirstLoop_findsLargest hsorted hdown
  | highFirst =>
      have hspec := @highFirstLoop_findsLargest assign array.reverse st
        (List.pairwise_reverse.mpr hsorted)
      constructor
      · intro s hs
        exact hspec.found s (by simpa only [List.mem_reverse] using hs)
      · intro hnone
        obtain ⟨hbest, hlast⟩ := hspec.none fun s hs => hnone s (List.mem_reverse.mp hs)
        exact ⟨hbest, fun _ => hlast (by simpa using hne)⟩
  | binary => exact binaryLoop_findsLargest hsorted hdown hne

end Search

end GridEngine
