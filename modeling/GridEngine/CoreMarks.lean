import GridEngine.CoreBinding
import Mathlib.Data.List.GetD
import Mathlib.Tactic

/-!
# Cores marked in a topology string

`topologyWith host marked` is the host's topology with some cores and their threads in lower case.
Taking a core marks one core more.
-/

namespace GridEngine
variable {host topology : List Char} {A B : ℕ → Bool} {i j k pos : ℕ}

theorem charAt_eq (h : i < topology.length) : charAt topology i = topology[i] := by
  rw [charAt, List.getD_eq_getElem _ _ h]

theorem charAt_of_le (h : topology.length ≤ i) : charAt topology i = '\x00' := by
  rw [charAt, List.getD_eq_default _ _ h]

theorem lt_length_of_charAt (h : charAt topology i ≠ '\x00') : i < topology.length := by
  by_contra hle
  exact h (charAt_of_le (not_lt.mp hle))

theorem ext_charAt {topology' : List Char} (hlen : topology.length = topology'.length)
    (h : ∀ i, charAt topology i = charAt topology' i) : topology = topology' := by
  apply List.ext_getElem hlen
  intro i hi hi'
  rw [← charAt_eq hi, ← charAt_eq hi', h]

theorem charAt_set {x : Char} (hi : i < topology.length) :
    charAt (topology.set i x) j = if i = j then x else charAt topology j := by
  by_cases hj : j < topology.length
  · rw [charAt_eq (by simpa using hj), List.getElem_set, charAt_eq hj]
  · rw [charAt_of_le (by simpa using hj), charAt_of_le (by simpa using hj), if_neg (by omega)]

theorem charAt_zipWith {f : Char → Char → Char} (hf : f '\x00' '\x00' = '\x00')
    {topology' : List Char} (hlen : topology.length = topology'.length) :
    charAt (List.zipWith f topology topology') i = f (charAt topology i) (charAt topology' i) := by
  by_cases hi : i < topology.length
  · have hi' : i < topology'.length := hlen ▸ hi
    rw [charAt_eq (by rw [List.length_zipWith]; omega), List.getElem_zipWith, charAt_eq hi,
      charAt_eq hi']
  · rw [charAt_of_le (by rw [List.length_zipWith]; omega), charAt_of_le (by omega),
      charAt_of_le (by omega), hf]

/-- The core a position belongs to: the last character up to it that is no thread. -/
def coreOf (host : List Char) : ℕ → ℕ
  | 0 => 0
  | i + 1 => if charAt host (i + 1) = 'T' then coreOf host i else i + 1

theorem coreOf_eq_iff (hpos : charAt host pos ≠ 'T') :
    coreOf host i = pos ↔ pos ≤ i ∧ ∀ k, pos < k → k ≤ i → charAt host k = 'T' := by
  induction i with
  | zero =>
      rw [coreOf]
      constructor
      · rintro rfl
        exact ⟨le_rfl, fun k hk hk' => by omega⟩
      · intro h
        omega
  | succ i ih =>
      rw [coreOf]
      split_ifs with hthread
      · rw [ih]
        constructor
        · intro h
          refine ⟨by omega, fun k hk hk' => ?_⟩
          by_cases hlast : k = i + 1
          · rw [hlast, hthread]
          · exact h.2 k hk (by omega)
        · intro h
          have hne : pos ≠ i + 1 := by
            rintro rfl
            exact hpos hthread
          exact ⟨by omega, fun k hk hk' => h.2 k hk (by omega)⟩
      · constructor
        · rintro rfl
          exact ⟨le_rfl, fun k hk hk' => by omega⟩
        · intro h
          by_contra hne
          exact hthread (h.2 (i + 1) (by omega) le_rfl)

theorem coreOf_self (hpos : charAt host pos ≠ 'T') : coreOf host pos = pos :=
  (coreOf_eq_iff hpos).mpr ⟨le_rfl, fun k hk hk' => by omega⟩

/-- The host's topology with the marked cores and their threads in lower case. -/
def topologyWith (host : List Char) (marked : ℕ → Bool) : List Char :=
  host.mapIdx fun i x => if marked (coreOf host i) then x.toLower else x

@[simp] theorem length_topologyWith : (topologyWith host A).length = host.length := by
  simp [topologyWith]

theorem charAt_topologyWith : charAt (topologyWith host A) i =
    if A (coreOf host i) then (charAt host i).toLower else charAt host i := by
  by_cases hi : i < host.length
  · rw [charAt_eq (by simpa using hi), charAt_eq hi]
    simp [topologyWith]
  · rw [charAt_of_le (by simpa using hi), charAt_of_le (by simpa using hi)]
    split_ifs <;> rfl

theorem topologyWith_none : topologyWith host (fun _ => false) = host :=
  ext_charAt (by simp) fun i => by rw [charAt_topologyWith]; simp

/-- A topology without usage. -/
def Letters (host : List Char) : Prop := ∀ x ∈ host, x = 'S' ∨ x = 'C' ∨ x = 'T'

theorem Letters.charAt (h : Letters host) (i : ℕ) : charAt host i = 'S' ∨ charAt host i = 'C' ∨
    charAt host i = 'T' ∨ charAt host i = '\x00' := by
  by_cases hi : i < host.length
  · rw [charAt_eq hi]
    have := h _ (List.getElem_mem hi)
    tauto
  · exact .inr (.inr (.inr (charAt_of_le (not_lt.mp hi))))

theorem letters_getTopology {sockets : List (List ℕ)} : Letters (getTopology sockets) := by
  intro x hx
  simp only [getTopology, List.mem_flatMap, List.mem_cons] at hx
  obtain ⟨cores, -, rfl | ⟨threads, -, rfl | hx⟩⟩ := hx
  · exact .inl rfl
  · exact .inr (.inl rfl)
  · exact .inr (.inr (List.eq_of_mem_replicate hx))

/-- A free core of a topology in use is a core of the host that is not marked. -/
theorem charAt_eq_core (h : Letters host) (hi : charAt (topologyWith host A) i = 'C') :
    charAt host i = 'C' ∧ A i = false := by
  rw [charAt_topologyWith] at hi
  have hletters := h.charAt i
  split_ifs at hi with hmarked
  · rcases hletters with hx | hx | hx | hx <;> rw [hx] at hi <;> exact absurd hi (by decide)
  · rw [coreOf_self (by rw [hi]; decide)] at hmarked
    exact ⟨hi, by simpa using hmarked⟩

theorem isThread_topologyWith (h : Letters host) :
    (charAt (topologyWith host A) i = 'T' ∨ charAt (topologyWith host A) i = 't') ↔
      charAt host i = 'T' := by
  rw [charAt_topologyWith]
  rcases h.charAt i with hx | hx | hx | hx <;> rw [hx] <;> split_ifs <;> decide

theorem length_accountThreads {fuel nextPos : ℕ} :
    (accountThreads fuel topology nextPos).length = topology.length := by
  induction fuel generalizing topology nextPos with
  | zero => rfl
  | succ fuel ih =>
      rw [accountThreads]
      split_ifs
      · rw [ih, List.length_set]
      · rfl

theorem charAt_accountThreads {fuel nextPos : ℕ} (hfuel : topology.length ≤ fuel + nextPos) :
    charAt (accountThreads fuel topology nextPos) i =
      if nextPos ≤ i ∧ ∀ k, nextPos ≤ k → k ≤ i →
        charAt topology k = 'T' ∨ charAt topology k = 't' then 't' else charAt topology i := by
  induction fuel generalizing topology nextPos with
  | zero =>
      rw [accountThreads, if_neg]
      rintro ⟨hle, hall⟩
      have hnext := hall nextPos le_rfl hle
      rw [charAt_of_le (by omega)] at hnext
      exact absurd hnext (by decide)
  | succ fuel ih =>
      rw [accountThreads]
      by_cases hthread : charAt topology nextPos = 'T' ∨ charAt topology nextPos = 't'
      · have hlt : nextPos < topology.length := by
          apply lt_length_of_charAt
          rcases hthread with h | h <;> rw [h] <;> decide
        rw [if_pos hthread, ih (by rw [List.length_set]; omega)]
        simp only [charAt_set hlt]
        by_cases hi : nextPos = i
        · subst hi
          rw [if_neg (by omega), if_pos rfl, if_pos]
          refine ⟨le_rfl, fun k hk hk' => ?_⟩
          rwa [le_antisymm hk' hk]
        · rw [if_neg hi]
          refine if_congr ⟨fun hall => ⟨by omega, fun k hk hk' => ?_⟩,
            fun hall => ⟨by omega, fun k hk hk' => ?_⟩⟩ rfl rfl
          · by_cases hk₀ : nextPos = k
            · rwa [← hk₀]
            · have hthread' := hall.2 k (by omega) hk'
              rwa [if_neg hk₀] at hthread'
          · rw [if_neg (by omega)]
            exact hall.2 k (by omega) hk'
      · rw [if_neg hthread, if_neg]
        rintro ⟨hle, hall⟩
        exact hthread (hall nextPos le_rfl hle)

theorem length_accountCore : (accountCore topology pos).length = topology.length := by
  rw [accountCore, accountAllThreadsAfterCore]
  split_ifs <;> simp [length_accountThreads]

theorem charAt_accountCore (hpos : pos < topology.length) : charAt (accountCore topology pos) i =
    if pos + 1 ≤ i ∧ ∀ k, pos + 1 ≤ k → k ≤ i →
      charAt topology k = 'T' ∨ charAt topology k = 't' then 't'
    else if pos = i then 'c' else charAt topology i := by
  have hset : (topology.set pos 'c').length = topology.length := List.length_set
  have hcond : (pos + 1 ≤ i ∧ ∀ k, pos + 1 ≤ k → k ≤ i → charAt (topology.set pos 'c') k = 'T' ∨
      charAt (topology.set pos 'c') k = 't') ↔
      pos + 1 ≤ i ∧ ∀ k, pos + 1 ≤ k → k ≤ i →
        charAt topology k = 'T' ∨ charAt topology k = 't' := by
    refine and_congr Iff.rfl (forall_congr' fun k => ?_)
    refine forall_congr' fun hk => ?_
    rw [charAt_set hpos, if_neg (by omega)]
  rw [accountCore, accountAllThreadsAfterCore, if_neg (by omega)]
  split_ifs with hlast hall hi hall hi
  · obtain ⟨hlt, hall⟩ := hall
    have hnext := hall (pos + 1) (by omega) (by omega)
    rw [charAt_of_le (by omega)] at hnext
    exact absurd hnext (by decide)
  · rw [charAt_set hpos, if_pos hi]
  · rw [charAt_set hpos, if_neg hi]
  · rw [charAt_accountThreads (by omega), if_pos (hcond.mpr hall)]
  · rw [charAt_accountThreads (by omega), if_neg (mt hcond.mp hall), charAt_set hpos, if_pos hi]
  · rw [charAt_accountThreads (by omega), if_neg (mt hcond.mp hall), charAt_set hpos, if_neg hi]

theorem accountCore_topologyWith (h : Letters host) (hpos : charAt host pos = 'C') :
    accountCore (topologyWith host A) pos =
      topologyWith host (fun i => decide (i = pos) || A i) := by
  have hthread : charAt host pos ≠ 'T' := by rw [hpos]; decide
  have hlt : pos < host.length := lt_length_of_charAt (by rw [hpos]; decide)
  apply ext_charAt (by rw [length_accountCore]; simp)
  intro i
  rw [charAt_accountCore (by simpa using hlt)]
  simp only [isThread_topologyWith h]
  simp only [charAt_topologyWith, Bool.or_eq_true, decide_eq_true_eq]
  have hcore := coreOf_eq_iff (i := i) hthread
  by_cases hown : coreOf host i = pos
  · rw [if_pos (Or.inl hown)]
    by_cases hi : pos = i
    · subst hi
      rw [if_neg (by omega), if_pos rfl, hpos]
      rfl
    · have hbehind := hcore.mp hown
      rw [if_pos ⟨by omega, hbehind.2⟩, hbehind.2 i (by omega) le_rfl]
      rfl
  · rw [if_neg fun hbehind => hown (hcore.mpr ⟨by omega, hbehind.2⟩), if_neg]
    · exact if_congr (or_iff_right hown).symm rfl rfl
    · rintro rfl
      exact hown (coreOf_self hthread)

/-- Only cores of the host are marked. -/
def Cores (host : List Char) (A : ℕ → Bool) : Prop := ∀ i, A i = true → charAt host i = 'C'

/-- The job's topology is what the copy has marked and the topology in use has not. -/
theorem createTopologyUsedPerJob_topologyWith (h : Letters host) :
    createTopologyUsedPerJob (topologyWith host A) (topologyWith host B) =
      topologyWith host (fun i => B i && !A i) := by
  apply ext_charAt
  · simp [createTopologyUsedPerJob]
  intro i
  rw [createTopologyUsedPerJob, charAt_zipWith (by decide) (by simp)]
  simp only [charAt_topologyWith, Bool.and_eq_true, Bool.not_eq_true']
  rcases h.charAt i with hx | hx | hx | hx <;> rw [hx] <;>
    cases A (coreOf host i) <;> cases B (coreOf host i) <;> rfl

theorem accountJobOnTopology_topologyWith (h : Letters host) :
    accountJobOnTopology (topologyWith host A) (topologyWith host B) =
      some (topologyWith host (fun i => A i || B i)) := by
  rw [accountJobOnTopology, if_neg (by simp)]
  congr 1
  apply ext_charAt
  · simp
  intro i
  rw [charAt_zipWith (by decide) (by simp)]
  simp only [charAt_topologyWith, Bool.or_eq_true]
  rcases h.charAt i with hx | hx | hx | hx <;> rw [hx] <;>
    cases A (coreOf host i) <;> cases B (coreOf host i) <;> rfl

/-- What freeing makes of a character. -/
def freedChar (t l : Char) : Char :=
  if t = 'c' then 'C' else if t = 't' then 'T' else if t = 's' then 'S' else l

/-- Freeing goes through the whole string when the characters fit and the string is not too
long. -/
theorem freeFrom_eq_zipWith {size : ℕ} {logical : List Char} (hlen : topology.length = logical.length)
    (hsize : topology.length ≤ size)
    (hfit : ∀ i, (charAt topology i = 'c' → charAt logical i = 'c') ∧
      (charAt topology i = 't' → charAt logical i = 't') ∧
      (charAt topology i = 's' → charAt logical i = 's')) :
    freeFrom size topology logical = (true, List.zipWith freedChar topology logical) := by
  induction topology generalizing size logical with
  | nil =>
      cases logical with
      | nil => cases size <;> rfl
      | cons l logical => cases hlen
  | cons t topology ih =>
      cases logical with
      | nil => cases hlen
      | cons l logical =>
          cases size with
          | zero => cases hsize
          | succ size =>
              have htail := ih (by simpa using hlen) (by simpa using hsize) fun i => hfit (i + 1)
              obtain ⟨hc, ht, hs⟩ := hfit 0
              change (t = 'c' → l = 'c') at hc
              change (t = 't' → l = 't') at ht
              change (t = 's' → l = 's') at hs
              rw [freeFrom, htail, List.zipWith_cons_cons, freedChar]
              split_ifs with h₁ h₂ h₃ h₄ h₅ h₆
              · exact absurd (hc h₁) h₂.1
              · rfl
              · exact absurd (ht h₃) h₄.1
              · rfl
              · exact absurd (hs h₅) h₆.1
              · rfl
              · rfl

theorem freeFrom_topologyWith {size : ℕ} (h : Letters host) (hsize : host.length ≤ size)
    (hAB : ∀ i, B i = true → A i = true) :
    freeFrom size (topologyWith host B) (topologyWith host A) =
      (true, topologyWith host (fun i => A i && !B i)) := by
  rw [freeFrom_eq_zipWith (by simp) (by simpa using hsize)]
  · congr 1
    apply ext_charAt
    · simp
    intro i
    rw [charAt_zipWith (by decide) (by simp)]
    simp only [charAt_topologyWith, Bool.and_eq_true, Bool.not_eq_true']
    rcases h.charAt i with hx | hx | hx | hx <;> rw [hx] <;>
      cases A (coreOf host i) <;> cases B (coreOf host i) <;> rfl
  · intro i
    simp only [charAt_topologyWith]
    have hsub := hAB (coreOf host i)
    rcases h.charAt i with hx | hx | hx | hx <;> rw [hx] <;>
      cases hA : A (coreOf host i) <;> cases hB : B (coreOf host i) <;>
      first | decide | exact absurd (hsub hB) (by simp [hA])

/-- A copy that has at least the marks `A`, and only on cores. -/
def Extends (host : List Char) (A : ℕ → Bool) (topology : List Char) : Prop :=
  ∃ B, Cores host B ∧ (∀ i, A i = true → B i = true) ∧ topology = topologyWith host B

theorem Extends.refl (hA : Cores host A) : Extends host A (topologyWith host A) :=
  ⟨A, hA, fun _ hi => hi, rfl⟩

theorem Extends.accountCore (h : Letters host) (hpos : charAt host pos = 'C')
    (hext : Extends host A topology) : Extends host A (accountCore topology pos) := by
  obtain ⟨B, hB, hAB, rfl⟩ := hext
  refine ⟨_, fun i hi => ?_, fun i hi => ?_, accountCore_topologyWith h hpos⟩
  · rw [Bool.or_eq_true, decide_eq_true_eq] at hi
    rcases hi with rfl | hi
    · exact hpos
    · exact hB i hi
  · rw [Bool.or_eq_true]
    exact .inr (hAB i hi)

theorem Extends.charAt_eq_core (h : Letters host) (hext : Extends host A topology)
    (hi : charAt topology i = 'C') : charAt host i = 'C' := by
  obtain ⟨B, -, -, rfl⟩ := hext
  exact (GridEngine.charAt_eq_core h hi).1

end GridEngine
