import GridEngine.CoreAccounting

/-!
# Numbers of sockets and cores

A core has the number of its socket and its number on the socket, whether it is in use or not. The
scans of the topology string count both on the side.
-/

namespace GridEngine
variable {host topology : List Char} {counted : ℕ → Bool} {A J J' : ℕ → Bool}
  {i pos pos' : ℕ}
  {socket core : ℕ}

/-- The sockets in front of a position. -/
def socketsBefore (host : List Char) (pos : ℕ) : ℕ :=
  Nat.count (fun k => isSocket (charAt host k) = true) pos

/-- The cores on the socket of `pos` in front of it, out of those that count. -/
def coresBefore (host : List Char) (counted : ℕ → Bool) (pos : ℕ) : ℕ :=
  Nat.count (fun k => (charAt host k = 'C' ∧ counted k = true) ∧
    socketsBefore host k = socketsBefore host pos) pos

/-- The core at `pos` has the number `core` among those of the socket that count. -/
structure NumberedCore (host : List Char) (counted : ℕ → Bool) (socket core pos : ℕ) : Prop where
  char : charAt host pos = 'C'
  counts : counted pos = true
  socket_eq : socketsBefore host pos = socket + 1
  core_eq : coresBefore host counted pos = core

/-- The pair of a socket and a core denotes the core at `pos`. -/
abbrev IsCore (host : List Char) (socket core pos : ℕ) : Prop :=
  NumberedCore host (fun _ => true) socket core pos

theorem socketsBefore_succ (host : List Char) (i : ℕ) : socketsBefore host (i + 1) =
    socketsBefore host i + if isSocket (charAt host i) then 1 else 0 := by
  simp only [socketsBefore, Nat.count_succ]

theorem socketsBefore_mono (h : i ≤ pos) : socketsBefore host i ≤ socketsBefore host pos :=
  Nat.count_monotone _ h

theorem coresBefore_socket (h : isSocket (charAt host i) = true) :
    coresBefore host counted (i + 1) = 0 := by
  rw [coresBefore, Nat.count_iff_forall_not]
  rintro k hk ⟨-, hsame⟩
  have hmono : socketsBefore host k ≤ socketsBefore host i := socketsBefore_mono (by omega)
  rw [socketsBefore_succ, if_pos h] at hsame
  omega

theorem coresBefore_succ (counted : ℕ → Bool) (h : isSocket (charAt host i) = false) :
    coresBefore host counted (i + 1) =
      coresBefore host counted i + if charAt host i = 'C' ∧ counted i = true then 1 else 0 := by
  have hsame : socketsBefore host (i + 1) = socketsBefore host i := by
    rw [socketsBefore_succ, h]
    rfl
  rw [coresBefore, hsame, Nat.count_succ, coresBefore]
  simp only [and_true]

theorem isSocket_core (h : charAt host i = 'C') : isSocket (charAt host i) = false := by
  rw [h]
  rfl

theorem NumberedCore.unique (h : NumberedCore host counted socket core pos)
    (h' : NumberedCore host counted socket core pos') : pos = pos' := by
  have hcount := h.core_eq
  have hcount' := h'.core_eq
  simp only [coresBefore, h.socket_eq] at hcount
  simp only [coresBefore, h'.socket_eq] at hcount'
  exact Nat.count_injective ⟨⟨h.char, h.counts⟩, h.socket_eq⟩ ⟨⟨h'.char, h'.counts⟩, h'.socket_eq⟩
    (hcount.trans hcount'.symm)

/-- The loop that `get_position_in_topology` and the striding allocation share, for the cores that
`isCore` finds. -/
def placeFrom (isCore : Char → Bool) (socket core : ℤ) : ℤ → ℤ → ℕ → List Char → Option ℕ
  | _, _, _, [] => none
  | s, c, i, x :: rest =>
      let s' := if isSocket x then s + 1 else s
      let c' := if isSocket x then -1 else if isCore x then c + 1 else c
      if socket = s' ∧ core = c' then some i else placeFrom isCore socket core s' c' (i + 1) rest

theorem positionFrom_eq {socket core s c : ℤ} (h : ∀ x ∈ topology, x ≠ 's') :
    positionFrom socket core s c i topology =
      ((placeFrom (fun x => x = 'C') socket core s c i topology).map Nat.cast).getD (-1) := by
  induction topology generalizing s c i with
  | nil => rfl
  | cons x rest ih =>
      have hx : isSocket x = decide (x = 'S') := by
        have hne := h x List.mem_cons_self
        simp [isSocket, hne]
      simp only [positionFrom, placeFrom, hx, decide_eq_true_eq]
      rw [ih fun y hy => h y (List.mem_cons_of_mem _ hy)]
      generalize (if x = 'S' then s + 1 else s) = s'
      generalize (if x = 'S' then -1 else if x = 'C' then c + 1 else c) = c'
      by_cases hfound : socket = s' ∧ core = c'
      · rw [if_pos hfound, if_pos hfound]
        rfl
      · rw [if_neg hfound, if_neg hfound]

theorem startFrom_eq {socket core s c : ℤ} : startFrom socket core topology s c i =
    placeFrom (fun x => x = 'C' || x = 'c') socket core s c i topology := by
  induction topology generalizing s c i with
  | nil => rfl
  | cons x rest ih =>
      have hcore : (if x = 'C' ∨ x = 'c' then c + 1 else if isSocket x then -1 else c) =
          if isSocket x then -1 else if (x = 'C' || x = 'c') = true then c + 1 else c := by
        by_cases hx : x = 'C' ∨ x = 'c'
        · rcases hx with rfl | rfl <;> rfl
        · simp [hx]
      simp only [startFrom, placeFrom, hcore, ih]
      refine if_congr ?_ rfl rfl
      rw [eq_comm, @eq_comm _ core]

/-- What the loop sees of the host in the topology in use. -/
structure Sees (host topology : List Char) (isCore : Char → Bool) (counted : ℕ → Bool) :
    Prop where
  length_eq : topology.length = host.length
  isSocket_eq : ∀ i, isSocket (charAt topology i) = isSocket (charAt host i)
  isCore_iff : ∀ i, isCore (charAt topology i) = true ↔ charAt host i = 'C' ∧ counted i = true

variable {isCore : Char → Bool}

/-- Before it has found the core the loop has counted what is in front of it. -/
theorem placeFrom_eq_some (h : Sees host topology isCore counted) {rest : List Char} {s c : ℤ}
    (hrest : topology.drop i = rest) (hs : s + 1 = socketsBefore host i)
    (hc : c + 1 = coresBefore host counted i) (hnot : ¬ ((socket : ℤ) = s ∧ (core : ℤ) = c)) :
    placeFrom isCore socket core s c i rest = some pos ↔
      i ≤ pos ∧ NumberedCore host counted socket core pos := by
  induction rest generalizing i s c with
  | nil =>
      rw [placeFrom, eq_false (Option.some_ne_none pos).symm, false_iff]
      intro hpos
      have hlen : pos < host.length := by
        apply lt_length_of_charAt
        rw [hpos.2.char]
        decide
      have hle := List.drop_eq_nil_iff.mp hrest
      rw [h.length_eq] at hle
      omega
  | cons x rest ih =>
      obtain ⟨hx, hrest'⟩ := charAt_drop_cons hrest
      have hsocket := h.isSocket_eq i
      have hcore := h.isCore_iff i
      rw [hx] at hsocket hcore
      have hstep : ∀ {s' c' : ℤ}, s' + 1 = socketsBefore host (i + 1) →
          c' + 1 = coresBefore host counted (i + 1) → ¬ ((socket : ℤ) = s' ∧ (core : ℤ) = c') →
          ¬ NumberedCore host counted socket core i →
          (placeFrom isCore socket core s' c' (i + 1) rest = some pos ↔
            i ≤ pos ∧ NumberedCore host counted socket core pos) := by
        intro s' c' hs' hc' hnot' hi
        rw [ih hrest' hs' hc' hnot']
        refine and_congr_left fun hpos => ⟨fun hle => by omega, fun hle => ?_⟩
        have hne : i ≠ pos := by
          rintro rfl
          exact hi hpos
        omega
      simp only [placeFrom]
      by_cases hS : isSocket x = true
      · -- a new socket has no core yet
        have hchar : charAt host i ≠ 'C' := by
          intro hchar
          rw [hchar, hS] at hsocket
          cases hsocket
        have hnew : ¬ ((socket : ℤ) = s + 1 ∧ (core : ℤ) = -1) := by omega
        rw [if_pos hS, if_pos hS, if_neg hnew]
        refine hstep ?_ ?_ hnew fun hi => hchar hi.char
        · rw [socketsBefore_succ, ← hsocket, if_pos hS, hs]
          push_cast
          rfl
        · rw [coresBefore_socket (hsocket ▸ hS)]
          rfl
      · have hsame : socketsBefore host (i + 1) = socketsBefore host i := by
          rw [socketsBefore_succ, ← hsocket, if_neg hS]
          rfl
        have hcores := coresBefore_succ counted (hsocket.symm.trans (by simpa using hS))
        rw [if_neg hS, if_neg hS]
        by_cases hC : isCore x = true
        · rw [if_pos hC]
          rw [if_pos (hcore.mp hC)] at hcores
          by_cases hfound : (socket : ℤ) = s ∧ (core : ℤ) = c + 1
          · rw [if_pos hfound]
            have hi : NumberedCore host counted socket core i :=
              ⟨(hcore.mp hC).1, (hcore.mp hC).2, by omega, by omega⟩
            constructor
            · intro hsome
              cases hsome
              exact ⟨le_rfl, hi⟩
            · intro hpos
              rw [hi.unique hpos.2]
          · rw [if_neg hfound]
            refine hstep (by omega) (by omega) hfound fun hi => hfound ?_
            have hsocket' := hi.socket_eq
            have hcore' := hi.core_eq
            omega
        · rw [if_neg hC, if_neg hnot]
          rw [if_neg (mt hcore.mpr hC)] at hcores
          exact hstep (by omega) (by omega) hnot fun hi => hC (hcore.mpr ⟨hi.char, hi.counts⟩)

theorem placeFrom_zero (h : Sees host topology isCore counted) :
    placeFrom isCore socket core (-1) (-1) 0 topology = some pos ↔
      NumberedCore host counted socket core pos := by
  rw [placeFrom_eq_some h List.drop_zero (by simp [socketsBefore]) (by simp [coresBefore])
    (by omega)]
  exact and_iff_right (Nat.zero_le pos)

theorem isSocket_topologyWith (h : Letters host) :
    isSocket (charAt (topologyWith host A) i) = isSocket (charAt host i) := by
  rw [charAt_topologyWith]
  rcases h.charAt i with hx | hx | hx | hx <;> rw [hx] <;> split_ifs <;> rfl

theorem charAt_eq_core_iff (h : Letters host) :
    charAt (topologyWith host A) i = 'C' ↔ charAt host i = 'C' ∧ A i = false := by
  refine ⟨charAt_eq_core h, fun hi => ?_⟩
  have hown : coreOf host i = i := coreOf_self (by rw [hi.1]; decide)
  rw [charAt_topologyWith, hown, hi.2, hi.1]
  rfl

theorem charAt_eq_used_iff (h : Letters host) :
    charAt (topologyWith host A) i = 'c' ↔ charAt host i = 'C' ∧ A i = true := by
  rw [charAt_topologyWith]
  constructor
  · intro hi
    split_ifs at hi with hused
    · have hx : charAt host i = 'C' := by
        rcases h.charAt i with hx | hx | hx | hx
        · rw [hx] at hi
          exact absurd hi (by decide)
        · exact hx
        all_goals
          rw [hx] at hi
          exact absurd hi (by decide)
      rw [coreOf_self (by rw [hx]; decide)] at hused
      exact ⟨hx, hused⟩
    · rcases h.charAt i with hx | hx | hx | hx <;> rw [hx] at hi <;> exact absurd hi (by decide)
  · intro hi
    have hown : coreOf host i = i := coreOf_self (by rw [hi.1]; decide)
    rw [hown, hi.2, hi.1]
    rfl

theorem sees_cores (h : Letters host) :
    Sees host (topologyWith host A) (fun x => x = 'C' || x = 'c') (fun _ => true) where
  length_eq := length_topologyWith
  isSocket_eq _ := isSocket_topologyWith h
  isCore_iff i := by
    rw [Bool.or_eq_true, decide_eq_true_eq, decide_eq_true_eq, charAt_eq_core_iff h,
      charAt_eq_used_iff h, ← and_or_left]
    cases A i <;> simp

/-- `get_position_in_topology` counts the free ones only. -/
theorem sees_free (h : Letters host) :
    Sees host (topologyWith host A) (fun x => x = 'C') (fun i => !A i) where
  length_eq := length_topologyWith
  isSocket_eq _ := isSocket_topologyWith h
  isCore_iff i := by
    rw [decide_eq_true_eq, charAt_eq_core_iff h, Bool.not_eq_true']

theorem startFrom_eq_some (h : Letters host) :
    startFrom socket core (topologyWith host A) (-1) (-1) 0 = some pos ↔
      IsCore host socket core pos := by
  rw [startFrom_eq]
  exact placeFrom_zero (sees_cores h)

theorem socket_upper (h : Letters host) (hA : Cores host A) :
    ∀ x ∈ topologyWith host A, x ≠ 's' := by
  intro x hx hs
  obtain ⟨i, hi, rfl⟩ := List.getElem_of_mem hx
  rw [← charAt_eq hi, charAt_topologyWith] at hs
  split_ifs at hs with hused
  · have hS : charAt host i = 'S' := by
      rcases h.charAt i with hx | hx | hx | hx
      · exact hx
      all_goals
        rw [hx] at hs
        exact absurd hs (by decide)
    rw [coreOf_self (by rw [hS]; decide)] at hused
    have hcore := hA i hused
    rw [hS] at hcore
    exact absurd hcore (by decide)
  · rcases h.charAt i with hx | hx | hx | hx <;> rw [hx] at hs <;> exact absurd hs (by decide)

/-- `get_position_in_topology` takes the number of a core as one among the free cores of the
socket. -/
theorem getPositionInTopology_eq (socket core : ℕ) (h : Letters host) (hA : Cores host A) :
    (∃ pos, NumberedCore host (fun i => !A i) socket core pos ∧
        getPositionInTopology socket core (topologyWith host A) = pos) ∨
      (∀ pos, ¬ NumberedCore host (fun i => !A i) socket core pos) ∧
        getPositionInTopology socket core (topologyWith host A) = -1 := by
  have hnonneg : ¬ ((socket : ℤ) < 0 ∨ (core : ℤ) < 0) := by omega
  rw [getPositionInTopology, if_neg hnonneg, positionFrom_eq (socket_upper h hA)]
  cases hplace : placeFrom (fun x => x = 'C') socket core (-1) (-1) 0 (topologyWith host A) with
  | some pos => exact .inl ⟨pos, (placeFrom_zero (sees_free h)).mp hplace, rfl⟩
  | none =>
      refine .inr ⟨fun pos hpos => ?_, rfl⟩
      rw [(placeFrom_zero (sees_free h)).mpr hpos] at hplace
      cases hplace

theorem eq_of_topologyWith (h : Letters host) (hJ : Cores host J) (hJ' : Cores host J')
    (heq : topologyWith host J = topologyWith host J') : J = J' := by
  funext i
  rw [← CoreSystem.marked_topologyWith h hJ, heq, CoreSystem.marked_topologyWith h hJ']

end GridEngine
