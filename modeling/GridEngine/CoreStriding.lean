import GridEngine.CorePlaces

/-!
# Striding

A starting point that does not fit has marked cores before it fails, and they stay marked on the
copy that the next starting point goes on with.
-/

namespace GridEngine
variable {host : List Char} {A B : ℕ → Bool} {i pos first start amount stepsize : ℕ}

/-- The number of a core on the host. -/
def coreIndex (host : List Char) (pos : ℕ) : ℕ := Nat.count (fun k => charAt host k = 'C') pos

/-- The cores of a stride: `amount` of them, each `stepsize` behind the one before. -/
structure StrideCore (host : List Char) (amount stepsize first pos : ℕ) : Prop where
  char : charAt host pos = 'C'
  index : ∃ n < amount, coreIndex host pos = coreIndex host first + n * stepsize

/-- The core with this number is there and free. -/
def FreeIndex (host : List Char) (A : ℕ → Bool) (index : ℕ) : Prop :=
  ∃ pos, charAt host pos = 'C' ∧ coreIndex host pos = index ∧ A pos = false

/-- `amount` free cores can be taken from this one on. -/
def StrideFits (host : List Char) (A : ℕ → Bool) (amount stepsize first : ℕ) : Prop :=
  charAt host first = 'C' ∧ ∀ n < amount, FreeIndex host A (coreIndex host first + n * stepsize)

theorem coreIndex_succ (host : List Char) (i : ℕ) : coreIndex host (i + 1) =
    coreIndex host i + if charAt host i = 'C' then 1 else 0 := Nat.count_succ _ i

theorem coreIndex_lt (h : charAt host i = 'C') (hlt : i < pos) :
    coreIndex host i < coreIndex host pos := Nat.count_strict_mono h hlt

theorem coreIndex_injective {j : ℕ} (hi : charAt host i = 'C') (hj : charAt host j = 'C')
    (h : coreIndex host i = coreIndex host j) : i = j := Nat.count_injective hi hj h

theorem freeIndex_of_core (h : charAt host i = 'C') :
    FreeIndex host A (coreIndex host i) ↔ A i = false := by
  constructor
  · rintro ⟨pos, hpos, hindex, hfree⟩
    rwa [← coreIndex_injective hpos h hindex]
  · intro hfree
    exact ⟨i, h, rfl, hfree⟩

theorem not_freeIndex (h : host.length ≤ i) {m : ℕ} (hm : coreIndex host i ≤ m) :
    ¬ FreeIndex host A m := by
  rintro ⟨pos, hpos, rfl, -⟩
  have hlen : pos < host.length := lt_length_of_charAt (by rw [hpos]; decide)
  have hlt := coreIndex_lt hpos (hlen.trans_le h)
  omega

theorem forall_lt_succ_shift {p : ℕ → Prop} {n m step : ℕ} :
    (∀ k < n + 1, p (m + k * step)) ↔ p m ∧ ∀ k < n, p (m + step + k * step) := by
  constructor
  · intro hall
    refine ⟨by simpa using hall 0 (by omega), fun k hk => ?_⟩
    have hnext := hall (k + 1) (by omega)
    rwa [show m + step + k * step = m + (k + 1) * step by ring]
  · rintro ⟨hfirst, hall⟩ k hk
    cases k with
    | zero => simpa using hfirst
    | succ k =>
        have hnext := hall k (by omega)
        rwa [show m + step + k * step = m + (k + 1) * step by ring] at hnext

/-- What the loop has still to take: the core with the number `m`, and from there every
`stepsize`-th one. -/
structure StrideLoop (host : List Char) (A B : ℕ → Bool) (stepsize n m : ℕ)
    (result : Bool × List Char) : Prop where
  fits_iff : result.1 = true ↔ ∀ k < n, FreeIndex host A (m + k * stepsize)
  marks : result.1 = true → ∃ B' : ℕ → Bool, result.2 = topologyWith host B' ∧
    ∀ j, B' j = true ↔ B j = true ∨
      charAt host j = 'C' ∧ ∃ k < n, coreIndex host j = m + k * stepsize

theorem StrideLoop.fails {n m : ℕ} {result : List Char} (h : ¬ FreeIndex host A m) (hn : n ≠ 0) :
    StrideLoop host A B stepsize n m (false, result) where
  fits_iff := by
    refine iff_of_false (by simp) fun hall => h ?_
    simpa using hall 0 (by omega)
  marks := by simp

theorem StrideLoop.take {n : ℕ} {result : Bool × List Char} (hcore : charAt host i = 'C')
    (hfree : A i = false)
    (h : StrideLoop host A (fun j => decide (j = i) || B j) stepsize n
      (coreIndex host i + stepsize) result) :
    StrideLoop host A B stepsize (n + 1) (coreIndex host i) result where
  fits_iff := by
    rw [h.fits_iff, forall_lt_succ_shift, freeIndex_of_core hcore, and_iff_right hfree]
  marks hresult := by
    obtain ⟨B', hB', hmarks⟩ := h.marks hresult
    refine ⟨B', hB', fun j => ?_⟩
    rw [hmarks, Bool.or_eq_true, decide_eq_true_eq]
    constructor
    · rintro ((rfl | hj) | ⟨hchar, k, hk, hindex⟩)
      · exact .inr ⟨hcore, 0, by omega, by simp⟩
      · exact .inl hj
      · exact .inr ⟨hchar, k + 1, by omega, by rw [hindex]; ring⟩
    · rintro (hj | ⟨hchar, k, hk, hindex⟩)
      · exact .inl (.inr hj)
      · cases k with
        | zero =>
            rw [zero_mul, add_zero] at hindex
            exact .inl (.inl (coreIndex_injective hchar hcore hindex))
        | succ k => exact .inr ⟨hchar, k, by omega, by rw [hindex]; ring⟩

theorem StrideLoop.done : StrideLoop host A B stepsize 0 pos (true, topologyWith host B) where
  fits_iff := by simp
  marks _ := ⟨B, rfl, fun j => by simp⟩

theorem strideFrom_spec (B : ℕ → Bool) (h : Letters host) (hstepsize : 1 ≤ stepsize)
    {rest : List Char} {foundCores accountedCores : ℕ} (hrest : (topologyWith host A).drop i = rest)
    (hfound : foundCores ≤ stepsize) (haccounted : accountedCores < amount) :
    StrideLoop host A B stepsize (amount - accountedCores)
      (coreIndex host i + (stepsize - foundCores))
      (strideFrom amount stepsize rest i foundCores accountedCores (topologyWith host B)) := by
  induction rest generalizing B i foundCores accountedCores with
  | nil =>
      have hlen := List.drop_eq_nil_iff.mp hrest
      rw [length_topologyWith] at hlen
      exact .fails (not_freeIndex hlen (Nat.le_add_right _ _)) (by omega)
  | cons x rest ih =>
      obtain ⟨hx, hrest'⟩ := charAt_drop_cons hrest
      have hopen : ¬ (accountedCores : ℤ) = amount := by omega
      have hindex := coreIndex_succ host i
      -- a core that is not needed brings the next one that is one step nearer
      have hskip : charAt host i = 'C' → foundCores < stepsize →
          StrideLoop host A B stepsize (amount - accountedCores)
            (coreIndex host i + (stepsize - foundCores))
            (strideFrom amount stepsize rest (i + 1) ((foundCores : ℤ) + 1) accountedCores
              (topologyWith host B)) := by
        intro hcore hstep
        have hnext := ih B hrest' (show foundCores + 1 ≤ stepsize by omega) haccounted
        rw [hindex, if_pos hcore] at hnext
        rw [show coreIndex host i + (stepsize - foundCores) =
          coreIndex host i + 1 + (stepsize - (foundCores + 1)) by omega]
        exact_mod_cast hnext
      rw [strideFrom]
      simp only [if_neg hopen]
      by_cases hfree : x = 'C'
      · rw [if_pos hfree]
        obtain ⟨hcore, hA⟩ := charAt_eq_core h (hx.trans hfree)
        rw [if_pos hcore] at hindex
        by_cases hstep : stepsize ≤ foundCores
        · have hleft : amount - accountedCores = (amount - (accountedCores + 1)) + 1 := by omega
          rw [if_pos (by omega), accountCore_topologyWith h hcore,
            show stepsize - foundCores = 0 by omega, add_zero, hleft]
          apply StrideLoop.take hcore hA
          by_cases hlast : accountedCores + 1 = amount
          · rw [if_pos (by omega), hlast, Nat.sub_self]
            exact .done
          · have hnext := ih (fun j => decide (j = i) || B j) hrest' hstepsize
              (show accountedCores + 1 < amount by omega)
            rw [hindex, show coreIndex host i + 1 + (stepsize - 1) =
              coreIndex host i + stepsize by omega] at hnext
            rw [if_neg (by omega)]
            exact_mod_cast hnext
        · rw [if_neg (by omega)]
          exact hskip hcore (by omega)
      · rw [if_neg hfree]
        by_cases hbusy : x = 'c'
        · rw [if_pos hbusy]
          obtain ⟨hcore, hA⟩ := (charAt_eq_used_iff h).mp (hx.trans hbusy)
          by_cases hstep : stepsize ≤ foundCores
          · rw [if_pos (by omega), show stepsize - foundCores = 0 by omega, add_zero]
            refine .fails ?_ (by omega)
            rw [freeIndex_of_core hcore, hA]
            exact Bool.true_eq_false_eq_False
          · rw [if_neg (by omega)]
            exact hskip hcore (by omega)
        · have hcore : charAt host i ≠ 'C' := by
            intro hcore
            cases hA : A i with
            | false => exact hfree (hx.symm.trans ((charAt_eq_core_iff h).mpr ⟨hcore, hA⟩))
            | true => exact hbusy (hx.symm.trans ((charAt_eq_used_iff h).mpr ⟨hcore, hA⟩))
          rw [if_neg hbusy]
          have hnext := ih B hrest' hfound haccounted
          rwa [hindex, if_neg hcore, add_zero] at hnext

theorem isStartingPoint_spec (pos : ℕ) (B : ℕ → Bool) (h : Letters host)
    (hstepsize : 1 ≤ stepsize) (hamount : 1 ≤ amount) :
    ((isStartingPoint (topologyWith host A) pos amount stepsize (topologyWith host B)).1 = true ↔
        StrideFits host A amount stepsize pos) ∧
      (StrideFits host A amount stepsize pos → ∃ B' : ℕ → Bool,
        (isStartingPoint (topologyWith host A) pos amount stepsize (topologyWith host B)).2 =
          topologyWith host B' ∧
        ∀ j, B' j = true ↔ B j = true ∨ StrideCore host amount stepsize pos j) := by
  have hfits : StrideFits host A amount stepsize pos → charAt (topologyWith host A) pos = 'C' := by
    intro hfits
    rw [charAt_eq_core_iff h]
    refine ⟨hfits.1, (freeIndex_of_core hfits.1).mp ?_⟩
    simpa using hfits.2 0 hamount
  rw [isStartingPoint]
  by_cases hfree : charAt (topologyWith host A) pos = 'C'
  · obtain ⟨hcore, hA⟩ := charAt_eq_core h hfree
    have hlen : pos < (topologyWith host A).length :=
      lt_length_of_charAt (by rw [hfree]; decide)
    have hloop : StrideLoop host A B stepsize ((amount - 1) + 1) (coreIndex host pos)
        (if (amount : ℤ) = 1 then (true, accountCore (topologyWith host B) pos)
          else strideFrom amount stepsize ((topologyWith host A).drop (pos + 1)) (pos + 1) 1 1
            (accountCore (topologyWith host B) pos)) := by
      rw [accountCore_topologyWith h hcore]
      apply StrideLoop.take hcore hA
      by_cases hone : amount = 1
      · rw [if_pos (by omega), hone, Nat.sub_self]
        exact .done
      · have hmore : 1 < amount := by omega
        have hnext := strideFrom_spec (A := A) (i := pos + 1) (fun j => decide (j = pos) || B j) h
          hstepsize rfl hstepsize hmore
        rw [coreIndex_succ, if_pos hcore, show coreIndex host pos + 1 + (stepsize - 1) =
          coreIndex host pos + stepsize by omega] at hnext
        rw [if_neg (by omega)]
        exact_mod_cast hnext
    rw [Nat.sub_add_cancel hamount] at hloop
    rw [if_neg (by push Not; refine ⟨by omega, by omega, by omega, hfree⟩)]
    have hiff : _ ↔ StrideFits host A amount stepsize pos :=
      hloop.fits_iff.trans ⟨fun hall => ⟨hcore, hall⟩, fun hfits => hfits.2⟩
    refine ⟨hiff, fun hfits => ?_⟩
    obtain ⟨B', hB', hmarks⟩ := hloop.marks (hiff.mpr hfits)
    refine ⟨B', hB', fun j => (hmarks j).trans ?_⟩
    exact or_congr_right ⟨fun hj => ⟨hj.1, hj.2⟩, fun hj => ⟨hj.char, hj.index⟩⟩
  · rw [if_pos (.inr (.inr (.inr hfree)))]
    exact ⟨iff_of_false (by simp) fun hf => hfree (hfits hf), fun hf => absurd (hfits hf) hfree⟩

theorem isStartingPoint_marks (h : Letters host) (hB : Cores host B) (hstepsize : 1 ≤ stepsize)
    (hamount : 1 ≤ amount) (hcore : charAt host pos = 'C') (hA : A pos = false) :
    Extends host (fun j => decide (j = pos) || B j)
      (isStartingPoint (topologyWith host A) pos amount stepsize (topologyWith host B)).2 := by
  have hfree : charAt (topologyWith host A) pos = 'C' := (charAt_eq_core_iff h).mpr ⟨hcore, hA⟩
  have hlen : pos < (topologyWith host A).length := lt_length_of_charAt (by rw [hfree]; decide)
  have hmarked : Extends host (fun j => decide (j = pos) || B j)
      (accountCore (topologyWith host B) pos) := by
    rw [accountCore_topologyWith h hcore]
    refine .refl fun j hj => ?_
    rw [Bool.or_eq_true, decide_eq_true_eq] at hj
    rcases hj with rfl | hj
    · exact hcore
    · exact hB j hj
  rw [isStartingPoint, if_neg (by push Not; refine ⟨by omega, by omega, by omega, hfree⟩)]
  split_ifs
  · exact hmarked
  · exact strideFrom_extends h rfl hmarked

/-- The core can be the first one of the stride. Without `automatic` only the start core is
tried. -/
structure Candidate (host : List Char) (A : ℕ → Bool) (amount stepsize start : ℕ)
    (automatic : Bool) (pos : ℕ) : Prop where
  le : start ≤ pos
  fits : StrideFits host A amount stepsize pos
  only : automatic = true ∨ pos = start

section Search
variable {startSocket startCore foundSockets foundCores : ℕ} {automatic : Bool}

/-- What is known when the search has come to a position: none of the cores behind it fits, the
free ones among them are marked, and the sockets and cores are counted. -/
structure Searched (host : List Char) (A : ℕ → Bool)
    (amount stepsize start startSocket startCore i foundSockets foundCores : ℕ)
    (B : ℕ → Bool) : Prop where
  le : start ≤ i
  cores : Cores host B
  sub : ∀ q, A q = true → B q = true
  clean : (∀ q, start ≤ q → q < i → charAt host q = 'C' → A q = true) → B = A
  dirty : ∀ q, start ≤ q → q < i → charAt host q = 'C' → A q = false → B q = true
  not_fits : ∀ q, start ≤ q → q < i → ¬ StrideFits host A amount stepsize q
  socket_eq : socketsBefore host i = startSocket + 1 + foundSockets
  core_eq : coresBefore host (fun _ => true) i =
    if foundSockets = 0 then startCore + foundCores else foundCores

theorem Searched.init (hA : Cores host A) (hstart : IsCore host startSocket startCore start) :
    Searched host A amount stepsize start startSocket startCore start 0 0 A where
  le := le_rfl
  cores := hA
  sub _ hq := hq
  clean _ := rfl
  dirty _ hle hlt := absurd hle (not_le.mpr hlt)
  not_fits _ hle hlt := absurd hle (not_le.mpr hlt)
  socket_eq := hstart.socket_eq
  core_eq := hstart.core_eq

theorem Searched.next (h : Letters host) (hstepsize : 1 ≤ stepsize) (hamount : 1 ≤ amount)
    (hs : Searched host A amount stepsize start startSocket startCore i foundSockets foundCores B)
    (hfits : ¬ StrideFits host A amount stepsize i) : ∃ B' : ℕ → Bool,
      (isStartingPoint (topologyWith host A) i amount stepsize (topologyWith host B)).2 =
        topologyWith host B' ∧
      (charAt host i = 'C' → Searched host A amount stepsize start startSocket startCore (i + 1)
        foundSockets (foundCores + 1) B') ∧
      (isSocket (charAt host i) = true → Searched host A amount stepsize start startSocket startCore
        (i + 1) (foundSockets + 1) 0 B') ∧
      (charAt host i ≠ 'C' → isSocket (charAt host i) = false → Searched host A amount stepsize
        start startSocket startCore (i + 1) foundSockets foundCores B') := by
  have hmarks : ∃ B' : ℕ → Bool, Cores host B' ∧ (∀ q, B q = true → B' q = true) ∧
      (charAt host i = 'C' → A i = false → B' i = true) ∧
      (¬ (charAt host i = 'C' ∧ A i = false) → B' = B) ∧
      (isStartingPoint (topologyWith host A) i amount stepsize (topologyWith host B)).2 =
        topologyWith host B' := by
    by_cases hfree : charAt host i = 'C' ∧ A i = false
    · obtain ⟨B', hB', hsub, heq⟩ :=
        isStartingPoint_marks h hs.cores hstepsize hamount hfree.1 hfree.2
      refine ⟨B', hB', fun q hq => hsub q (by simp [hq]), fun _ _ => hsub i (by simp),
        fun hnot => absurd hfree hnot, heq⟩
    · refine ⟨B, hs.cores, fun _ hq => hq, fun hcore hA => absurd ⟨hcore, hA⟩ hfree, fun _ => rfl,
        ?_⟩
      rw [isStartingPoint, if_pos (.inr (.inr (.inr (mt (charAt_eq_core_iff h).mp hfree))))]
  obtain ⟨B', hB', hsub, hmark, hsame, heq⟩ := hmarks
  have hlast : ∀ {q}, q < i + 1 → q < i ∨ q = i := by
    intro q hq
    omega
  have hnext : ∀ {foundSockets' foundCores' : ℕ},
      socketsBefore host (i + 1) = startSocket + 1 + foundSockets' →
      (coresBefore host (fun _ => true) (i + 1) =
        if foundSockets' = 0 then startCore + foundCores' else foundCores') →
      Searched host A amount stepsize start startSocket startCore (i + 1) foundSockets' foundCores'
        B' := by
    intro foundSockets' foundCores' hsocket hcore
    refine ⟨hs.le.trans (Nat.le_succ i), hB', fun q hq => hsub q (hs.sub q hq), fun hused => ?_,
      fun q hle hlt hchar hfree => ?_, fun q hle hlt => ?_, hsocket, hcore⟩
    · rw [hsame fun hfree => ?_]
      · exact hs.clean fun q hle hlt => hused q hle (by omega)
      · rw [hused i hs.le (Nat.lt_succ_self i) hfree.1] at hfree
        cases hfree.2
    · rcases hlast hlt with hlt | rfl
      · exact hsub q (hs.dirty q hle hlt hchar hfree)
      · exact hmark hchar hfree
    · rcases hlast hlt with hlt | rfl
      · exact hs.not_fits q hle hlt
      · exact hfits
  have hsockets := socketsBefore_succ host i
  rw [hs.socket_eq] at hsockets
  refine ⟨B', heq, fun hchar => ?_, fun hsocket => ?_, fun hchar hsocket => ?_⟩
  · have hcores := coresBefore_succ (fun _ => true) (isSocket_core hchar)
    rw [if_pos ⟨hchar, rfl⟩, hs.core_eq] at hcores
    rw [isSocket_core hchar] at hsockets
    refine hnext hsockets (hcores.trans ?_)
    split_ifs <;> rfl
  · rw [if_pos hsocket] at hsockets
    exact hnext hsockets (coresBefore_socket hsocket)
  · have hcores := coresBefore_succ (fun _ => true) hsocket
    rw [if_neg fun hcore => hchar hcore.1, hs.core_eq] at hcores
    rw [hsocket] at hsockets
    exact hnext hsockets hcores

/-- The search ends at the first core that fits, with the marks of the ones behind it. -/
theorem tryStarts_spec (automatic : Bool) (h : Letters host) (hstepsize : 1 ≤ stepsize)
    (hamount : 1 ≤ amount) {rest : List Char} (hstart : charAt host start = 'C')
    (hrest : (topologyWith host A).drop i = rest) (hauto : automatic = true ∨ i = start)
    (hs : Searched host A amount stepsize start startSocket startCore i foundSockets foundCores B) :
    (tryStarts (topologyWith host A) amount stepsize automatic rest i foundSockets foundCores
        (topologyWith host B) = none ∧
      ∀ pos, ¬ Candidate host A amount stepsize start automatic pos) ∨
    ∃ first sockets cores B' marked,
      tryStarts (topologyWith host A) amount stepsize automatic rest i foundSockets foundCores
        (topologyWith host B) = some (topologyWith host marked, sockets, cores) ∧
      Candidate host A amount stepsize start automatic first ∧
      Searched host A amount stepsize start startSocket startCore first sockets cores B' ∧
      ∀ j, marked j = true ↔ B' j = true ∨ StrideCore host amount stepsize first j := by
  induction rest generalizing i foundSockets foundCores B with
  | nil =>
      refine .inl ⟨rfl, fun pos hpos => ?_⟩
      have hlen := List.drop_eq_nil_iff.mp hrest
      rw [length_topologyWith] at hlen
      have hlt : pos < host.length := lt_length_of_charAt (by rw [hpos.fits.1]; decide)
      exact hs.not_fits pos hpos.le (by omega) hpos.fits
  | cons x rest ih =>
      obtain ⟨hx, hrest'⟩ := charAt_drop_cons hrest
      obtain ⟨hresult, hmarks⟩ :=
        isStartingPoint_spec (A := A) i B h hstepsize hamount
      simp only [tryStarts]
      by_cases hfits : StrideFits host A amount stepsize i
      · rw [if_pos (hresult.mpr hfits)]
        obtain ⟨marked, heq, hmarked⟩ := hmarks hfits
        rw [heq]
        exact .inr ⟨i, foundSockets, foundCores, B, marked, rfl, ⟨hs.le, hfits, hauto⟩, hs, hmarked⟩
      · rw [if_neg (mt hresult.mp hfits)]
        obtain ⟨B', heq, hcore, hsocket, hother⟩ := hs.next h hstepsize hamount hfits
        rw [heq]
        have hchar := (sees_cores (A := A) h).isCore_iff i
        have hsock := isSocket_topologyWith (A := A) (i := i) h
        rw [hx] at hchar hsock
        simp only [Bool.or_eq_true, decide_eq_true_eq, and_true] at hchar
        by_cases hC : x = 'C' ∨ x = 'c'
        · rw [if_pos hC]
          by_cases hone : automatic = false
          · rw [if_pos hone]
            refine .inl ⟨rfl, fun pos hpos => ?_⟩
            have hfirst : i = start := hauto.resolve_left (by simp [hone])
            have hpos' : pos = start := hpos.only.resolve_left (by simp [hone])
            rw [hpos', ← hfirst] at hpos
            exact hfits hpos.fits
          · rw [if_neg hone]
            exact ih hrest' (.inl (by simpa using hone)) (hcore (hchar.mp hC))
        · rw [if_neg hC]
          have hne : charAt host i ≠ 'C' := mt hchar.mpr hC
          have hauto' : automatic = true := by
            refine hauto.resolve_right ?_
            rintro rfl
            exact hne hstart
          by_cases hS : isSocket x = true
          · rw [if_pos hS]
            exact ih hrest' (.inl hauto') (hsocket (hsock ▸ hS))
          · rw [if_neg hS]
            exact ih hrest' (.inl hauto') (hother hne (by simpa [hsock] using hS))

end Search

section Grants
variable {startSocket startCore : ℕ} {automatic : Bool}

/-- The result of the striding allocation for numbers. -/
def stridingBinding (host : List Char) (A : ℕ → Bool)
    (amount stepsize startSocket startCore : ℕ) (automatic : Bool) : Binding × ℤ × ℤ :=
  getStridingFirstSocketFirstCoreAndAccount (topologyWith host A) amount stepsize startSocket
    startCore automatic

/-- The allocation is possible when a core fits. It gives the job the stride from the first such
core and returns the numbers of that core. -/
structure GrantsStride (host : List Char) (A : ℕ → Bool) (amount stepsize start : ℕ)
    (automatic : Bool) (result : Binding × ℤ × ℤ) : Prop where
  possible_iff : result.1.job.isSome = true ↔
    ∃ pos, Candidate host A amount stepsize start automatic pos
  takes : ∀ job, result.1.job = some job → ∃ first socket core : ℕ,
    IsLeast {pos | Candidate host A amount stepsize start automatic pos} first ∧
    (∃ J : ℕ → Bool, (∀ i, J i = true ↔ StrideCore host amount stepsize first i) ∧
      job = topologyWith host J) ∧
    result.2 = ((socket : ℤ), (core : ℤ)) ∧ IsCore host socket core first

/-- No core fits, or the first free one does. In the second case it is on the socket where the
search starts, or the search starts at the first core of its socket. -/
def FirstFreeFits (host : List Char) (A : ℕ → Bool)
    (amount stepsize startSocket startCore start : ℕ) (automatic : Bool) : Prop :=
  (∀ pos, ¬ Candidate host A amount stepsize start automatic pos) ∨
    ∃ pos, Candidate host A amount stepsize start automatic pos ∧
      (∀ q, start ≤ q → q < pos → charAt host q = 'C' → A q = true) ∧
      (startCore = 0 ∨ socketsBefore host pos = startSocket + 1)

theorem StrideFits.free (hamount : 1 ≤ amount) (h : StrideFits host A amount stepsize first) :
    A first = false := by
  rw [← freeIndex_of_core h.1]
  simpa using h.2 0 hamount

theorem StrideCore.free (hfits : StrideFits host A amount stepsize first)
    (h : StrideCore host amount stepsize first pos) : A pos = false := by
  obtain ⟨n, hn, hindex⟩ := h.index
  rw [← freeIndex_of_core h.char, hindex]
  exact hfits.2 n hn

theorem StrideCore.le (h : StrideCore host amount stepsize first pos) : first ≤ pos := by
  obtain ⟨n, -, hindex⟩ := h.index
  by_contra hlt
  have hless := coreIndex_lt h.char (not_le.mp hlt)
  omega

/-- Striding takes the stride exactly when the search does not fail at a free core before, and does
not leave the socket of a start core other than the first. -/
theorem striding_grants_iff {sockets : List (List ℕ)} (hA : Cores (getTopology sockets) A)
    (hamount : 1 ≤ amount) (hstepsize : 1 ≤ stepsize)
    (hstart : IsCore (getTopology sockets) startSocket startCore start) :
    GrantsStride (getTopology sockets) A amount stepsize start automatic
        (stridingBinding (getTopology sockets) A amount stepsize startSocket startCore automatic) ↔
      FirstFreeFits (getTopology sockets) A amount stepsize startSocket startCore start
        automatic := by
  have h : Letters (getTopology sockets) := letters_getTopology
  generalize getTopology sockets = host at hA hstart h
  have hnonneg : ¬ ((startSocket : ℤ) < 0 ∨ (startCore : ℤ) < 0) := by omega
  rw [stridingBinding, getStridingFirstSocketFirstCoreAndAccount, if_neg hnonneg,
    (startFrom_eq_some (A := A) h).mpr hstart]
  dsimp only
  rcases tryStarts_spec automatic h hstepsize hamount hstart.char rfl (.inr rfl)
    (Searched.init hA hstart) with
    ⟨htry, hnone⟩ | ⟨first, sockets, cores, B, marked, htry, hcand, hs, hmarked⟩
  · rw [htry]
    refine iff_of_true ⟨iff_of_false (by simp) fun hpos => hpos.elim hnone, ?_⟩ (.inl hnone)
    intro job hjob
    cases hjob
  · rw [htry]
    dsimp only
    have hleast : IsLeast {pos | Candidate host A amount stepsize start automatic pos} first := by
      refine ⟨hcand, fun pos hpos => ?_⟩
      by_contra hlt
      exact hs.not_fits pos hpos.le (not_le.mp hlt) hpos.fits
    have hcores : Cores host fun i => marked i && !A i := by
      intro i hi
      rw [Bool.and_eq_true, hmarked] at hi
      rcases hi.1 with hB | hstride
      · exact hs.cores i hB
      · exact hstride.char
    constructor
    · intro hgrants
      obtain ⟨first', socket, core, hleast', ⟨J, hJ, hjob⟩, hnumbers, hcore⟩ :=
        hgrants.takes _ rfl
      cases hleast.unique hleast'
      rw [createTopologyUsedPerJob_topologyWith h] at hjob
      have heq := eq_of_topologyWith h hcores (fun i hi => ((hJ i).mp hi).char) hjob
      refine .inr ⟨first, hcand, fun q hle hlt hchar => ?_, ?_⟩
      · by_contra hused
        have hfree : A q = false := by simpa using hused
        have hJq : J q = true := by
          rw [← heq]
          dsimp only
          rw [hfree, (hmarked q).mpr (.inl (hs.dirty q hle hlt hchar hfree))]
          rfl
        exact absurd ((hJ q).mp hJq).le (not_le.mpr hlt)
      · have hnumber := congrArg Prod.snd hnumbers
        have hcounted := hs.core_eq
        have hsocket := hs.socket_eq
        rw [hcore.core_eq] at hcounted
        dsimp only at hnumber
        split_ifs at hcounted with hzero <;> omega
    · rintro (hnone | ⟨pos, hpos, hused, hsame⟩)
      · exact absurd hcand (hnone first)
      · have hfirst : pos = first := by
          refine le_antisymm ?_ (hleast.2 hpos)
          by_contra hlt
          have hbusy := hused first hcand.le (not_le.mp hlt) hcand.fits.1
          rw [hcand.fits.free hamount] at hbusy
          cases hbusy
        subst hfirst
        have hclean := hs.clean hused
        subst hclean
        refine ⟨iff_of_true rfl ⟨pos, hcand⟩, fun job hjob => ?_⟩
        cases hjob
        refine ⟨pos, startSocket + sockets, startCore + cores, hleast,
          ⟨fun i => marked i && !B i, fun i => ?_, createTopologyUsedPerJob_topologyWith h⟩,
          by push_cast; rfl, hcand.fits.1, rfl, ?_, ?_⟩
        · rw [Bool.and_eq_true, hmarked, Bool.not_eq_true']
          constructor
          · rintro ⟨hB | hstride, hfree⟩
            · rw [hfree] at hB
              cases hB
            · exact hstride
          · intro hstride
            exact ⟨.inr hstride, hstride.free hcand.fits⟩
        · have hsocket := hs.socket_eq
          omega
        · have hcounted := hs.core_eq
          have hsocket := hs.socket_eq
          split_ifs at hcounted with hzero <;> omega

/-- Two sockets with two cores, the first core of each is in use. The search starts at the second
core, which fits at once. -/
theorem striding_grants_sockets :
    GrantsStride (getTopology [[1, 1], [1, 1]]) (fun i => i == 1 || i == 6) 2 2 3 true
      (stridingBinding (getTopology [[1, 1], [1, 1]]) (fun i => i == 1 || i == 6) 2 2 0 1
        true) := by
  have hfits : StrideFits (getTopology [[1, 1], [1, 1]]) (fun i => i == 1 || i == 6) 2 2 3 := by
    refine ⟨rfl, fun n hn => ?_⟩
    obtain rfl | rfl : n = 0 ∨ n = 1 := by omega
    · exact ⟨3, rfl, rfl, rfl⟩
    · exact ⟨8, rfl, rfl, rfl⟩
  refine (striding_grants_iff (fun i hi => ?_) (by decide) (by decide) ⟨rfl, rfl, rfl, rfl⟩).mpr
    (.inr ⟨3, ⟨le_rfl, hfits, .inl rfl⟩, fun q hle hlt => by omega, .inr rfl⟩)
  rw [Bool.or_eq_true, beq_iff_eq, beq_iff_eq] at hi
  rcases hi with rfl | rfl <;> rfl

/-- The first of four cores does not fit, as the third one is in use. It stays marked when the
stride from the second core is granted. -/
theorem striding_marks_failed : ¬ ∀ (sockets : List (List ℕ)) (A : ℕ → Bool)
    (amount stepsize startSocket startCore start : ℕ) (automatic : Bool),
    Cores (getTopology sockets) A → 1 ≤ amount → 1 ≤ stepsize →
      IsCore (getTopology sockets) startSocket startCore start →
      GrantsStride (getTopology sockets) A amount stepsize start automatic
        (stridingBinding (getTopology sockets) A amount stepsize startSocket startCore
          automatic) := by
  intro h
  have hgrants := h [[0, 0, 0, 0]] (fun i => i == 3) 2 2 0 0 1 true (fun i hi => by
    rw [beq_iff_eq] at hi
    rw [hi]
    rfl) (by decide) (by decide) ⟨rfl, rfl, rfl, rfl⟩
  have hjob : (stridingBinding (getTopology [[0, 0, 0, 0]]) (fun i => i == 3) 2 2 0 0 true).1.job =
      some "SccCc".toList := by decide
  obtain ⟨first, -, -, hleast, ⟨J, hJ, heq⟩, -, -⟩ := hgrants.takes _ hjob
  have hmarked : J 1 = true := by
    have hcores : Cores (getTopology [[0, 0, 0, 0]]) J := fun i hi => ((hJ i).mp hi).char
    rw [← CoreSystem.marked_topologyWith letters_getTopology hcores, ← heq]
    rfl
  have hstride := (hJ 1).mp hmarked
  have hfirst : first = 1 := by
    obtain ⟨n, -, hindex⟩ := hstride.index
    refine coreIndex_injective hleast.1.fits.1 hstride.char ?_
    have hzero : coreIndex (getTopology [[0, 0, 0, 0]]) 1 = 0 := rfl
    omega
  have hbusy := hleast.1.fits.2 1 (by decide)
  rw [hfirst] at hbusy
  exact absurd ((freeIndex_of_core (i := 3) rfl).mp hbusy) (by decide)

end Grants

end GridEngine
