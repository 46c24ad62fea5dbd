import GridEngine.CorePlaces

/-!
# Explicit binding

`binding_explicit_check_and_account` looks a pair up among the cores that are free, so that a core
in use shifts the numbers of the cores behind it on the same socket.
-/

namespace GridEngine

section Counting
variable {p q : ℕ → Prop} [DecidablePred p] [DecidablePred q] {m n : ℕ}

theorem lt_count_iff : m < Nat.count p n ↔ ∃ k < n, p k ∧ Nat.count p k = m := by
  induction n with
  | zero => simp
  | succ n ih =>
      rw [Nat.count_succ]
      constructor
      · intro hlt
        by_cases hm : m < Nat.count p n
        · obtain ⟨k, hk, hp⟩ := ih.mp hm
          exact ⟨k, by omega, hp⟩
        · split_ifs at hlt with hn
          · exact ⟨n, by omega, hn, by omega⟩
          · omega
      · rintro ⟨k, hk, hp, rfl⟩
        by_cases hkn : k = n
        · subst hkn
          rw [if_pos hp]
          omega
        · have hlt := ih.mpr ⟨k, by omega, hp, rfl⟩
          omega

theorem count_eq_iff (h : ∀ k, q k → p k) :
    Nat.count q n = Nat.count p n ↔ ∀ k < n, p k → q k := by
  induction n with
  | zero => simp
  | succ n ih =>
      have hle : Nat.count q n ≤ Nat.count p n := Nat.count_mono_left fun k _ => h k
      rw [Nat.count_succ, Nat.count_succ]
      constructor
      · intro heq k hk hp
        by_cases hq : q n
        · rw [if_pos hq, if_pos (h n hq)] at heq
          by_cases hkn : k = n
          · rwa [hkn]
          · exact ih.mp (by omega) k (by omega) hp
        · rw [if_neg hq] at heq
          by_cases hn : p n
          · rw [if_pos hn] at heq
            omega
          · rw [if_neg hn] at heq
            have hkn : k ≠ n := by
              rintro rfl
              exact hn hp
            exact ih.mp (by omega) k (by omega) hp
      · intro hall
        rw [ih.mpr fun k hk => hall k (by omega)]
        congr 1
        exact if_congr ⟨h n, hall n (by omega)⟩ rfl rfl

/-- An injective map of a bounded set into itself that never decreases is the identity. -/
theorem eq_of_increasing {s : Set ℕ} {f : ℕ → ℕ} {bound : ℕ} (hbound : ∀ c ∈ s, c ≤ bound)
    (hf : ∀ c ∈ s, f c ∈ s ∧ c ≤ f c) (hinj : ∀ c ∈ s, ∀ d ∈ s, f c = f d → c = d) :
    ∀ c ∈ s, f c = c := by
  intro c hc
  induction hk : bound - c using Nat.strong_induction_on generalizing c with
  | _ k ih =>
      obtain ⟨hfc, hle⟩ := hf c hc
      by_contra hne
      have hb := hbound (f c) hfc
      have hfix : f (f c) = f c := ih (bound - f c) (by omega) (f c) hfc rfl
      exact hne (hinj (f c) hfc c hc hfix)

end Counting

variable {host : List Char} {A J J' : ℕ → Bool} {pairs : List (ℕ × ℕ)} {socket core pos : ℕ}

/-- The number of free cores of a socket. -/
def freeCores (host : List Char) (A : ℕ → Bool) (socket : ℕ) : ℕ :=
  Nat.count (fun k => (charAt host k = 'C' ∧ (!A k) = true) ∧ socketsBefore host k = socket + 1)
    host.length

theorem exists_free_iff :
    (∃ pos, NumberedCore host (fun i => !A i) socket core pos) ↔
      core < freeCores host A socket := by
  rw [freeCores, lt_count_iff]
  constructor
  · rintro ⟨pos, hpos⟩
    have hlen : pos < host.length := lt_length_of_charAt (by rw [hpos.char]; decide)
    have hcore := hpos.core_eq
    simp only [coresBefore, hpos.socket_eq] at hcore
    exact ⟨pos, hlen, ⟨⟨hpos.char, hpos.counts⟩, hpos.socket_eq⟩, hcore⟩
  · rintro ⟨pos, -, ⟨hcore, hsocket⟩, hcount⟩
    refine ⟨pos, hcore.1, hcore.2, hsocket, ?_⟩
    simp only [coresBefore, hsocket]
    exact hcount

/-- The cores up to this one, by their numbers, are there and free. -/
def FreeUpTo (host : List Char) (A : ℕ → Bool) (socket core : ℕ) : Prop :=
  ∀ c ≤ core, ∃ pos, IsCore host socket c pos ∧ A pos = false

theorem coresBefore_free_le (host : List Char) (A : ℕ → Bool) (pos : ℕ) :
    coresBefore host (fun i => !A i) pos ≤ coresBefore host (fun _ => true) pos :=
  Nat.count_mono_left fun _ _ hk => ⟨⟨hk.1.1, rfl⟩, hk.2⟩

theorem coresBefore_free_eq_iff :
    coresBefore host (fun i => !A i) pos = coresBefore host (fun _ => true) pos ↔
      ∀ k < pos, charAt host k = 'C' → socketsBefore host k = socketsBefore host pos →
        A k = false := by
  rw [coresBefore, coresBefore, count_eq_iff fun k hk => ⟨⟨hk.1.1, rfl⟩, hk.2⟩]
  refine forall₂_congr fun k hk => ?_
  simp only [Bool.not_eq_true']
  tauto

/-- A core with free cores only in front of it has the same number among the free ones. -/
theorem FreeUpTo.numbered (h : FreeUpTo host A socket core) (hpos : IsCore host socket core pos) :
    NumberedCore host (fun i => !A i) socket core pos := by
  have hfree : A pos = false := by
    obtain ⟨pos', hpos', hA⟩ := h core le_rfl
    rwa [hpos.unique hpos']
  have hall : coresBefore host (fun i => !A i) pos = coresBefore host (fun _ => true) pos := by
    rw [coresBefore_free_eq_iff]
    intro k hk hchar hsocket
    have hnumber : IsCore host socket (coresBefore host (fun _ => true) k) k :=
      ⟨hchar, rfl, hsocket.trans hpos.socket_eq, rfl⟩
    have hless : coresBefore host (fun _ => true) k ≤ core := by
      have hcore := hpos.core_eq
      simp only [coresBefore, hsocket] at hcore ⊢
      rw [← hcore]
      exact Nat.count_monotone _ hk.le
    obtain ⟨k', hk', hfreek⟩ := h _ hless
    rwa [hk'.unique hnumber] at hfreek
  exact ⟨hpos.char, by simp [hfree], hpos.socket_eq, hall.trans hpos.core_eq⟩

theorem FreeUpTo.numbered_iff (h : FreeUpTo host A socket core) :
    NumberedCore host (fun i => !A i) socket core pos ↔ IsCore host socket core pos := by
  obtain ⟨pos', hpos', -⟩ := h core le_rfl
  have hfree := h.numbered hpos'
  constructor
  · intro hpos
    rwa [hpos.unique hfree]
  · intro hpos
    rwa [hpos.unique hpos']

theorem FreeUpTo.lt_freeCores (h : FreeUpTo host A socket core) :
    core < freeCores host A socket := by
  obtain ⟨pos, hpos, -⟩ := h core le_rfl
  exact exists_free_iff.mp ⟨pos, h.numbered hpos⟩

/-- A free core with the same number among all cores has free cores only in front of it. -/
theorem freeUpTo_of_numbered (h : NumberedCore host (fun i => !A i) socket core pos)
    (hcore : IsCore host socket core pos) : FreeUpTo host A socket core := by
  intro c hc
  have hall := coresBefore_free_eq_iff.mp (h.core_eq.trans hcore.core_eq.symm)
  by_cases hlast : c = core
  · rw [hlast]
    exact ⟨pos, hcore, by simpa using h.counts⟩
  · have hlt : c < coresBefore host (fun _ => true) pos := by
      have hcount := hcore.core_eq
      omega
    obtain ⟨k, hk, ⟨⟨hchar, -⟩, hsocket⟩, hck⟩ := lt_count_iff.mp hlt
    refine ⟨k, ⟨hchar, rfl, hsocket.trans hcore.socket_eq, ?_⟩, hall k hk hchar hsocket⟩
    rw [coresBefore, hsocket]
    exact hck

theorem accountPairs_spec (pairs : List (ℕ × ℕ)) (h : Letters host) (hA : Cores host A) :
    (∀ pair ∈ pairs, pair.2 < freeCores host A pair.1) ∧
        (∃ J', (∀ i, J' i = true ↔ J i = true ∨
            ∃ pair ∈ pairs, NumberedCore host (fun i => !A i) pair.1 pair.2 i) ∧
          accountPairs (topologyWith host A) (pairs.map fun pair => ((pair.1 : ℤ), (pair.2 : ℤ)))
            (topologyWith host J) = some (topologyWith host J')) ∨
      (∃ pair ∈ pairs, freeCores host A pair.1 ≤ pair.2) ∧
        accountPairs (topologyWith host A) (pairs.map fun pair => ((pair.1 : ℤ), (pair.2 : ℤ)))
          (topologyWith host J) = none := by
  induction pairs generalizing J with
  | nil => exact .inl ⟨by simp, J, by simp, rfl⟩
  | cons pair pairs ih =>
      obtain ⟨socket, core⟩ := pair
      simp only [List.map_cons, accountPairs]
      rcases getPositionInTopology_eq socket core h hA with
        ⟨pos, hpos, hfound⟩ | ⟨hnone, hfound⟩
      · have hchar : charAt (topologyWith host A) pos = 'C' :=
          (charAt_eq_core_iff h).mpr ⟨hpos.char, by simpa using hpos.counts⟩
        rw [hfound, if_neg (by omega), Int.toNat_natCast, if_pos hchar,
          accountCore_topologyWith h hpos.char]
        rcases ih (J := fun i => decide (i = pos) || J i) with
          ⟨hall, J', hJ', haccount⟩ | ⟨hfew, haccount⟩
        · refine .inl ⟨?_, J', fun i => ?_, haccount⟩
          · rw [List.forall_mem_cons]
            exact ⟨exists_free_iff.mp ⟨pos, hpos⟩, hall⟩
          · rw [hJ', Bool.or_eq_true, decide_eq_true_eq]
            simp only [List.exists_mem_cons_iff]
            have hi : i = pos ↔ NumberedCore host (fun i => !A i) socket core i :=
              ⟨fun hi => hi ▸ hpos, fun hi => hi.unique hpos⟩
            rw [hi]
            tauto
        · refine .inr ⟨?_, haccount⟩
          obtain ⟨pair, hpair, hle⟩ := hfew
          exact ⟨pair, List.mem_cons_of_mem _ hpair, hle⟩
      · rw [hfound, if_pos (by omega)]
        refine .inr ⟨⟨(socket, core), List.mem_cons_self, ?_⟩, rfl⟩
        by_contra hlt
        obtain ⟨pos, hpos⟩ := exists_free_iff.mpr (not_le.mp hlt)
        exact hnone pos hpos

/-- The result of the explicit allocation for pairs of numbers. -/
def explicitBinding (host : List Char) (A : ℕ → Bool) (pairs : List (ℕ × ℕ)) : Binding :=
  bindingExplicitCheckAndAccount host (topologyWith host A) (pairs.map fun pair => (pair.1 : ℤ))
    (pairs.map fun pair => (pair.2 : ℤ))

/-- The allocation is possible when the pairs denote free cores, and it gives the job these. -/
structure AddressesCores (host : List Char) (A : ℕ → Bool) (pairs : List (ℕ × ℕ))
    (result : Binding) : Prop where
  possible_iff : result.job.isSome = true ↔
    ∀ pair ∈ pairs, ∃ pos, IsCore host pair.1 pair.2 pos ∧ A pos = false
  marks : ∀ job, result.job = some job → ∃ J : ℕ → Bool,
    (∀ i, J i = true ↔ ∃ pair ∈ pairs, IsCore host pair.1 pair.2 i) ∧ job = topologyWith host J

/-- No core in use is in front of a core that is asked for, or the request is refused with good
reason and by the numbers among the free cores as well. -/
def FreeCoresFit (host : List Char) (A : ℕ → Bool) (pairs : List (ℕ × ℕ)) : Prop :=
  pairs ≠ [] ∧ ((∀ pair ∈ pairs, FreeUpTo host A pair.1 pair.2) ∨
    (∃ pair ∈ pairs, ¬ ∃ pos, IsCore host pair.1 pair.2 pos ∧ A pos = false) ∧
      ∃ pair ∈ pairs, freeCores host A pair.1 ≤ pair.2)

theorem explicitBinding_spec (pairs : List (ℕ × ℕ)) (h : Letters host) (hA : Cores host A) :
    ((pairs ≠ [] ∧ ∀ pair ∈ pairs, pair.2 < freeCores host A pair.1) ∧
        ∃ J : ℕ → Bool, (∀ i, J i = true ↔
          ∃ pair ∈ pairs, NumberedCore host (fun i => !A i) pair.1 pair.2 i) ∧
        (explicitBinding host A pairs).job = some (topologyWith host J)) ∨
      (pairs = [] ∨ ∃ pair ∈ pairs, freeCores host A pair.1 ≤ pair.2) ∧
        (explicitBinding host A pairs).job = none := by
  rw [explicitBinding, bindingExplicitCheckAndAccount]
  simp only [List.length_map, ne_eq, not_true_eq_false, false_or, List.length_eq_zero_iff]
  by_cases hnil : pairs = []
  · rw [if_pos hnil]
    exact .inr ⟨.inl hnil, rfl⟩
  · rw [if_neg hnil, List.zip_map']
    rcases accountPairs_spec (J := fun _ => false) pairs h hA with
      ⟨hall, J, hJ, haccount⟩ | ⟨hfew, haccount⟩
    · rw [topologyWith_none] at haccount
      simp only [haccount, accountJobOnTopology_topologyWith h]
      refine .inl ⟨⟨hnil, hall⟩, J, fun i => ?_, rfl⟩
      rw [hJ]
      exact or_iff_right Bool.false_ne_true
    · rw [topologyWith_none] at haccount
      refine .inr ⟨.inr hfew, ?_⟩
      simp only [haccount]

/-- When the marked cores are the ones that were asked for, none of them has a core in use in front
of it. -/
theorem freeUpTo_of_marks
    (hfree : ∀ pair ∈ pairs, pair.2 < freeCores host A pair.1)
    (hmarks : ∀ i, (∃ pair ∈ pairs, NumberedCore host (fun i => !A i) pair.1 pair.2 i) →
      ∃ pair ∈ pairs, IsCore host pair.1 pair.2 i) :
    ∀ pair ∈ pairs, FreeUpTo host A pair.1 pair.2 := by
  rintro ⟨socket, core⟩ hpair
  have hplace : ∀ c, (socket, c) ∈ pairs →
      ∃ pos, NumberedCore host (fun i => !A i) socket c pos := fun c hc =>
    exists_free_iff.mpr (hfree _ hc)
  choose! place hplace using hplace
  -- the number that the core found for `c` has among all cores
  have hbound : ∀ c ∈ {c | (socket, c) ∈ pairs}, c ≤ freeCores host A socket := fun c hc =>
    (hfree _ hc).le
  have hfix := eq_of_increasing (f := fun c => coresBefore host (fun _ => true) (place c)) hbound
    ?_ ?_
  · have hcore := hfix core hpair
    have hpos := hplace core hpair
    exact freeUpTo_of_numbered hpos ⟨hpos.char, rfl, hpos.socket_eq, hcore⟩
  · intro c hc
    have hpos := hplace c hc
    obtain ⟨⟨socket', c'⟩, hpair', hcore⟩ := hmarks (place c) ⟨_, hc, hpos⟩
    have hsocket : socket' = socket := by
      have heq := hcore.socket_eq.symm.trans hpos.socket_eq
      omega
    subst hsocket
    refine ⟨?_, ?_⟩
    · simp only [hcore.core_eq]
      exact hpair'
    · have hle := coresBefore_free_le host A (place c)
      rwa [hpos.core_eq] at hle
  · intro c hc d hd heq
    have hposc := hplace c hc
    have hposd := hplace d hd
    have hnumbered : NumberedCore host (fun _ => true) socket
        (coresBefore host (fun _ => true) (place d)) (place c) :=
      ⟨hposc.char, rfl, hposc.socket_eq, heq⟩
    have hsame : place c = place d := hnumbered.unique ⟨hposd.char, rfl, hposd.socket_eq, rfl⟩
    rw [← hposc.core_eq, hsame, hposd.core_eq]

theorem cores_numbered {counted : ℕ → Bool}
    (hJ : ∀ i, J i = true ↔ ∃ pair ∈ pairs, NumberedCore host counted pair.1 pair.2 i) :
    Cores host J := by
  intro i hi
  obtain ⟨pair, -, hcore⟩ := (hJ i).mp hi
  exact hcore.char

/-- Explicit binding addresses the right cores exactly when no core in use shifts them. -/
theorem binding_explicit_addresses_iff {sockets : List (List ℕ)} {pairs : List (ℕ × ℕ)}
    (hA : Cores (getTopology sockets) A) :
    AddressesCores (getTopology sockets) A pairs (explicitBinding (getTopology sockets) A pairs) ↔
      FreeCoresFit (getTopology sockets) A pairs := by
  have h : Letters (getTopology sockets) := letters_getTopology
  generalize getTopology sockets = host at hA h
  rcases explicitBinding_spec pairs h hA with
    ⟨⟨hnil, hall⟩, J, hJ, hjob⟩ | ⟨hrefused, hjob⟩
  · constructor
    · rintro ⟨-, hmarks⟩
      refine ⟨hnil, .inl (freeUpTo_of_marks hall fun i hi => ?_)⟩
      obtain ⟨J', hJ', heq⟩ := hmarks _ hjob
      rw [eq_of_topologyWith h (cores_numbered hJ) (cores_numbered hJ') heq] at hJ
      exact (hJ' i).mp ((hJ i).mpr hi)
    · rintro ⟨-, hupTo | ⟨-, pair, hpair, hle⟩⟩
      · refine ⟨?_, ?_⟩
        · rw [hjob]
          refine iff_of_true rfl fun pair hpair => hupTo pair hpair _ le_rfl
        · intro job heq
          rw [hjob] at heq
          cases heq
          refine ⟨J, fun i => (hJ i).trans ?_, rfl⟩
          exact exists_congr fun pair => and_congr_right fun hpair =>
            (hupTo pair hpair).numbered_iff
      · exact absurd (hall pair hpair) (not_lt.mpr hle)
  · constructor
    · rintro ⟨hpossible, -⟩
      rw [hjob] at hpossible
      have hbad : ¬ ∀ pair ∈ pairs, ∃ pos, IsCore host pair.1 pair.2 pos ∧ A pos = false :=
        fun hall => by simpa using hpossible.mpr hall
      rcases hrefused with rfl | hfew
      · exact absurd (by simp) hbad
      · push Not at hbad
        obtain ⟨pair, hpair, hnot⟩ := hbad
        refine ⟨?_, .inr ⟨⟨pair, hpair, fun ⟨pos, hpos, hA⟩ => hnot pos hpos hA⟩, hfew⟩⟩
        rintro rfl
        cases hpair
    · rintro ⟨hnil, hupTo | ⟨⟨pair, hpair, hnot⟩, -⟩⟩
      · obtain ⟨pair, hpair, hle⟩ := hrefused.resolve_left hnil
        exact absurd (hupTo pair hpair).lt_freeCores (not_lt.mpr hle)
      · refine ⟨?_, fun job heq => by rw [hjob] at heq; cases heq⟩
        rw [hjob]
        exact iff_of_false (by simp) fun hall => hnot (hall pair hpair)

/-- Two sockets with two cores, and a job on the second core of the first socket: the first core of
the first socket and both cores of the second one. -/
theorem binding_explicit_addresses_sockets :
    AddressesCores (getTopology [[1, 1], [1, 1]]) (fun i => i == 3) [(1, 1), (0, 0)]
      (explicitBinding (getTopology [[1, 1], [1, 1]]) (fun i => i == 3) [(1, 1), (0, 0)]) := by
  refine (binding_explicit_addresses_iff fun i hi => ?_).mpr ⟨by decide, .inl ?_⟩
  · rw [beq_iff_eq] at hi
    rw [hi]
    rfl
  · have hcores : ∀ c ≤ 1, ∃ pos, IsCore (getTopology [[1, 1], [1, 1]]) 1 c pos ∧
        (pos == 3) = false := by
      intro c hc
      obtain rfl | rfl : c = 0 ∨ c = 1 := by omega
      · exact ⟨6, ⟨rfl, rfl, rfl, rfl⟩, rfl⟩
      · exact ⟨8, ⟨rfl, rfl, rfl, rfl⟩, rfl⟩
    intro pair hpair
    rcases List.mem_cons.mp hpair with rfl | hpair
    · exact hcores
    · cases List.mem_singleton.mp hpair
      intro c hc
      cases Nat.le_zero.mp hc
      exact ⟨1, ⟨rfl, rfl, rfl, rfl⟩, rfl⟩

/-- The first core is in use, and a request for it gets the second one. -/
theorem binding_explicit_shifted : ¬ ∀ (sockets : List (List ℕ)) (A : ℕ → Bool)
    (pairs : List (ℕ × ℕ)), Cores (getTopology sockets) A → pairs.Nodup →
      AddressesCores (getTopology sockets) A pairs
        (explicitBinding (getTopology sockets) A pairs) := by
  intro h
  have hright := h [[0, 0]] (fun i => i == 1) [(0, 0)] (fun i hi => by
    rw [beq_iff_eq] at hi
    rw [hi]
    rfl) (List.nodup_singleton _)
  have hjob : (explicitBinding (getTopology [[0, 0]]) (fun i => i == 1) [(0, 0)]).job =
      some "SCc".toList := by decide
  obtain ⟨pos, hpos, hfree⟩ := hright.possible_iff.mp (by rw [hjob]; rfl) (0, 0)
    (List.mem_singleton_self _)
  have hfirst : IsCore (getTopology [[0, 0]]) 0 0 1 := ⟨rfl, rfl, rfl, rfl⟩
  rw [hpos.unique hfirst] at hfree
  cases hfree

end GridEngine
