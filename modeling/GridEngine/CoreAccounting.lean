import GridEngine.CoreMarks
import GridEngine.Machine

/-!
# Runs of the core accounting

Each allocator marks free cores only, on a copy or on the job's own topology. So the topologies of
the live jobs stay disjoint, and the topology in use is what they mark together.
-/

namespace GridEngine
variable {host topology : List Char} {A B : ℕ → Bool} {i k pos : ℕ}

section Allocators
variable {amount stepsize socketNumber coresNeeded : ℤ} {acc : SocketCores}

theorem charAt_drop_cons {x : Char} {rest : List Char} (h : topology.drop i = x :: rest) :
    charAt topology i = x ∧ topology.drop (i + 1) = rest := by
  have hlt : i < topology.length := by
    by_contra hle
    rw [List.drop_of_length_le (not_lt.mp hle)] at h
    cases h
  rw [List.drop_eq_getElem_cons hlt] at h
  cases h
  exact ⟨charAt_eq hlt, rfl⟩

theorem charAt_accountPairs (h : Letters host)
    {pairs : List (ℤ × ℤ)} {job job' : List Char} {J : ℕ → Bool}
    (hJ : Cores host J) (hJA : ∀ i, J i = true → A i = false) (hjob : job = topologyWith host J)
    (haccount : accountPairs (topologyWith host A) pairs job = some job') :
    ∃ J', Cores host J' ∧ (∀ i, J' i = true → A i = false) ∧ job' = topologyWith host J' := by
  induction pairs generalizing job J with
  | nil =>
      cases haccount
      exact ⟨J, hJ, hJA, hjob⟩
  | cons pair pairs ih =>
      obtain ⟨socket, core⟩ := pair
      simp only [accountPairs] at haccount
      generalize getPositionInTopology socket core (topologyWith host A) = pos at haccount
      split_ifs at haccount with hneg hfree
      obtain ⟨hcore, hnot⟩ := charAt_eq_core h hfree
      refine ih ?_ ?_ ?_ haccount (J := fun i => decide (i = pos.toNat) || J i)
      · intro i hi
        rw [Bool.or_eq_true, decide_eq_true_eq] at hi
        rcases hi with rfl | hi
        · exact hcore
        · exact hJ i hi
      · intro i hi
        rw [Bool.or_eq_true, decide_eq_true_eq] at hi
        rcases hi with rfl | hi
        · exact hnot
        · exact hJA i hi
      · rw [hjob, accountCore_topologyWith h hcore]

theorem coresFrom_extends (h : Letters host) {fuel : ℕ} {coreCounter : ℤ}
    (hext : Extends host A acc.topology) :
    Extends host A (coresFrom socketNumber coresNeeded fuel i coreCounter acc).topology := by
  induction fuel generalizing i coreCounter acc with
  | zero => exact hext
  | succ fuel ih =>
      simp only [coresFrom]
      split_ifs with hend hcore hdone hsocket hdone
      · exact hext
      · exact hext.accountCore h (hext.charAt_eq_core h hcore)
      · exact ih (hext.accountCore h (hext.charAt_eq_core h hcore))
      · exact hext
      · exact hext
      all_goals exact ih hext

theorem accountCoresOnSocket_extends (h : Letters host) {pairs : List (ℤ × ℤ)}
    (hext : Extends host A topology) :
    Extends host A (accountCoresOnSocket topology socketNumber coresNeeded pairs).topology := by
  simp only [accountCoresOnSocket]
  split_ifs
  · exact hext
  · exact coresFrom_extends h hext

theorem fillFreeSockets_extends (h : Letters host) {sockets : List ℕ}
    (hext : Extends host A acc.topology) :
    Extends host A (fillFreeSockets amount sockets acc).topology := by
  induction sockets generalizing acc with
  | nil => exact hext
  | cons socket sockets ih =>
      simp only [fillFreeSockets]
      split_ifs
      · exact ih (accountCoresOnSocket_extends h hext)
      · exact hext

theorem fillSockets_extends (h : Letters host) {fuel : ℕ} {neededCores : ℤ}
    {pairs : List (ℤ × ℤ)} (hext : Extends host A topology) :
    Extends host A (fillSockets fuel neededCores topology pairs).2.1 := by
  induction fuel generalizing neededCores topology pairs with
  | zero => exact hext
  | succ fuel ih =>
      simp only [fillSockets]
      split_ifs
      · cases getSocketWithMostFreeCores topology with
        | none => exact hext
        | some socketFree =>
            have hfound : Extends host A
                (accountCoresOnSocket topology socketFree neededCores pairs).topology :=
              accountCoresOnSocket_extends h hext
            dsimp only
            split_ifs
            · exact hfound
            · exact ih hfound
      · exact hext

theorem fillSockets_fuel {fuel : ℕ} {neededCores : ℤ} {pairs : List (ℤ × ℤ)}
    (hfuel : neededCores ≤ fuel) : fillSockets (fuel + 1) neededCores topology pairs =
      fillSockets fuel neededCores topology pairs := by
  induction fuel generalizing neededCores topology pairs with
  | zero =>
      have hnone : neededCores ≤ 0 := by exact_mod_cast hfuel
      simp [fillSockets, hnone]
  | succ fuel ih =>
      rw [fillSockets, fillSockets]
      split_ifs
      · cases getSocketWithMostFreeCores topology with
        | none => rfl
        | some socketFree =>
            dsimp only
            split_ifs with hfound
            · rfl
            · apply ih
              push_cast at hfuel
              omega
      · rfl

theorem strideFrom_extends (h : Letters host) {rest : List Char} {foundCores accountedCores : ℤ}
    (hrest : (topologyWith host A).drop i = rest) (hext : Extends host B topology) :
    Extends host B
      (strideFrom amount stepsize rest i foundCores accountedCores topology).2 := by
  induction rest generalizing i foundCores accountedCores topology with
  | nil => exact hext
  | cons x rest ih =>
      obtain ⟨hx, hrest'⟩ := charAt_drop_cons hrest
      rw [strideFrom]
      split_ifs with hcore hstep hdone hdone hbusy hstep hdone hdone
      · subst hcore
        exact hext.accountCore h (charAt_eq_core h hx).1
      · subst hcore
        exact ih hrest' (hext.accountCore h (charAt_eq_core h hx).1)
      · exact hext
      · exact ih hrest' hext
      · exact hext
      · exact hext
      · exact ih hrest' hext
      · exact hext
      · exact ih hrest' hext

theorem isStartingPoint_extends (h : Letters host) (hext : Extends host B topology) :
    Extends host B (isStartingPoint (topologyWith host A) pos amount stepsize topology).2 := by
  rw [isStartingPoint]
  split_ifs with hbad hone
  · exact hext
  · simp only [not_or, not_not] at hbad
    exact hext.accountCore h (charAt_eq_core h hbad.2.2.2).1
  · simp only [not_or, not_not] at hbad
    exact strideFrom_extends h rfl (hext.accountCore h (charAt_eq_core h hbad.2.2.2).1)

theorem tryStarts_extends (h : Letters host) {automatic : Bool} {rest tmpTopoBusy : List Char}
    {foundSockets foundCores : ℕ} {found : ℕ × ℕ} (hext : Extends host B topology)
    (htry : tryStarts (topologyWith host A) amount stepsize automatic rest i foundSockets
      foundCores topology = some (tmpTopoBusy, found)) : Extends host B tmpTopoBusy := by
  induction rest generalizing i foundSockets foundCores topology with
  | nil => cases htry
  | cons x rest ih =>
      have hstart : Extends host B
          (isStartingPoint (topologyWith host A) i amount stepsize topology).2 :=
        isStartingPoint_extends h hext
      simp only [tryStarts] at htry
      split_ifs at htry
      · cases htry
        exact hstart
      all_goals exact ih hstart htry

/-- What an allocator does for its caller: it takes cores no one has, or it changes nothing. -/
def Binding.Grants (host : List Char) (A : ℕ → Bool) (result : Binding) : Prop :=
  (result.job = none ∧ result.logicalUsedTopology = topologyWith host A) ∨
    ∃ J, Cores host J ∧ (∀ i, J i = true → A i = false) ∧
      result.job = some (topologyWith host J) ∧
      result.logicalUsedTopology = topologyWith host (fun i => A i || J i)

theorem grants_of_extends (h : Letters host) {tmpTopoBusy : List Char}
    (hext : Extends host A tmpTopoBusy) :
    Binding.Grants host A
      ⟨some (createTopologyUsedPerJob (topologyWith host A) tmpTopoBusy), tmpTopoBusy⟩ := by
  obtain ⟨B, hB, hAB, rfl⟩ := hext
  refine .inr ⟨fun i => B i && !A i, fun i hi => ?_, fun i hi => ?_, ?_, ?_⟩
  · rw [Bool.and_eq_true] at hi
    exact hB i hi.1
  · simp only [Bool.and_eq_true, Bool.not_eq_true'] at hi
    exact hi.2
  · rw [createTopologyUsedPerJob_topologyWith h]
  · dsimp only
    congr 1
    funext i
    have hsub := hAB i
    cases hA : A i <;> cases hB : B i <;> simp_all

theorem bindingExplicit_grants (h : Letters host) {listOfSockets listOfCores : List ℤ} :
    (bindingExplicitCheckAndAccount host (topologyWith host A) listOfSockets
      listOfCores).Grants host A := by
  rw [bindingExplicitCheckAndAccount]
  split_ifs
  · exact .inl ⟨rfl, rfl⟩
  cases haccount : accountPairs (topologyWith host A) (listOfSockets.zip listOfCores) host with
  | none => exact .inl ⟨rfl, rfl⟩
  | some topoUsedByJob =>
      obtain ⟨J, hJ, hJA, rfl⟩ := charAt_accountPairs h (fun i hi => by cases hi)
        (fun i hi => by cases hi) topologyWith_none.symm haccount
      simp only [accountJobOnTopology_topologyWith h]
      exact .inr ⟨J, hJ, hJA, rfl, rfl⟩

theorem getLinear_grants (h : Letters host) (hA : Cores host A) :
    (getLinearAutomaticSocketCoreListAndAccount (topologyWith host A) amount).1.Grants host A := by
  simp only [getLinearAutomaticSocketCoreListAndAccount]
  split_ifs
  · exact grants_of_extends h (fillSockets_extends h (fillFreeSockets_extends h (.refl hA)))
  · exact .inl ⟨rfl, rfl⟩

theorem getStriding_grants (h : Letters host) (hA : Cores host A) {startAtSocket startAtCore : ℤ}
    {automatic : Bool} :
    (getStridingFirstSocketFirstCoreAndAccount (topologyWith host A) amount stepsize startAtSocket
      startAtCore automatic).1.Grants host A := by
  rw [getStridingFirstSocketFirstCoreAndAccount]
  split_ifs
  · exact .inl ⟨rfl, rfl⟩
  cases startFrom startAtSocket startAtCore (topologyWith host A) (-1) (-1) 0 with
  | none => exact .inl ⟨rfl, rfl⟩
  | some i =>
      dsimp only
      cases htry : tryStarts (topologyWith host A) amount stepsize automatic
          ((topologyWith host A).drop i) i 0 0 (topologyWith host A) with
      | none => exact .inl ⟨rfl, rfl⟩
      | some found => exact grants_of_extends h (tryStarts_extends h (.refl hA) htry)

end Allocators

/-- The topology in use and the topologies of the live jobs. -/
structure CoreSystem where
  logicalUsedTopology : List Char
  live : List (List Char)
deriving DecidableEq, Repr

/-- The calls of the accounting. The topology of the `k`-th live job is freed with its length, or
without. -/
inductive CoreAction where
  | explicit (listOfSockets listOfCores : List ℤ)
  | striding (amount stepsize startAtSocket startAtCore : ℤ) (automatic : Bool)
  | linear (amount : ℤ)
  | free (k : ℕ) (withLength : Bool)
deriving DecidableEq, Repr

/-- The result of a call that allocates. -/
def CoreAction.allocate (host logicalUsedTopology : List Char) : CoreAction → Option Binding
  | .explicit listOfSockets listOfCores =>
      some (bindingExplicitCheckAndAccount host logicalUsedTopology listOfSockets listOfCores)
  | .striding amount stepsize startAtSocket startAtCore automatic =>
      some (getStridingFirstSocketFirstCoreAndAccount logicalUsedTopology amount stepsize
        startAtSocket startAtCore automatic).1
  | .linear amount =>
      some (getLinearAutomaticSocketCoreListAndAccount logicalUsedTopology amount).1
  | .free .. => none

namespace CoreSystem

def step (host : List Char) (s : CoreSystem) : CoreAction → Option CoreSystem
  | .free k withLength =>
      match s.live[k]? with
      | none => none
      | some job =>
          some ⟨(freeTopology job (if withLength then job.length + 1 else -1)
            s.logicalUsedTopology).2, s.live.eraseIdx k⟩
  | action =>
      (action.allocate host s.logicalUsedTopology).map fun result =>
        ⟨result.logicalUsedTopology, result.job.toList ++ s.live⟩

def run (host : List Char) (actions : List CoreAction) : Option CoreSystem :=
  actions.foldlM (step host) ⟨host, []⟩

/-- The cores marked in a job's topology. -/
def marked (job : List Char) (i : ℕ) : Bool := charAt job i = 'c'

/-- No core has two jobs, the topology in use has what the live jobs have, and an allocation that is
not possible changes nothing. -/
structure Exclusive (host : List Char) (s : CoreSystem) : Prop where
  disjoint : s.live.Pairwise fun job job' => ∀ i, ¬ (marked job i = true ∧ marked job' i = true)
  jobs : ∀ job ∈ s.live, Cores host (marked job) ∧ job = topologyWith host (marked job)
  union : s.logicalUsedTopology = topologyWith host fun i => s.live.any (marked · i)
  unchanged : ∀ (action : CoreAction) (result : Binding),
    action.allocate host s.logicalUsedTopology = some result → result.job = none →
      result.logicalUsedTopology = s.logicalUsedTopology

theorem marked_topologyWith (h : Letters host) (hA : Cores host A) :
    marked (topologyWith host A) i = A i := by
  rw [marked, charAt_topologyWith, Bool.eq_iff_iff, decide_eq_true_eq]
  constructor
  · intro hi
    have hown : A (coreOf host i) = true := by
      by_contra hnot
      rw [if_neg hnot] at hi
      rcases h.charAt i with hx | hx | hx | hx <;> rw [hx] at hi <;> exact absurd hi (by decide)
    rw [if_pos hown] at hi
    have hthread : charAt host i ≠ 'T' := by
      intro hx
      rw [hx] at hi
      exact absurd hi (by decide)
    rwa [coreOf_self hthread] at hown
  · intro hi
    have hcore := hA i hi
    rw [coreOf_self (by rw [hcore]; decide), if_pos hi, hcore]
    rfl

/-- The part of the books that concerns the cores. -/
structure Inv (host : List Char) (s : CoreSystem) : Prop where
  disjoint : s.live.Pairwise fun job job' => ∀ i, ¬ (marked job i = true ∧ marked job' i = true)
  jobs : ∀ job ∈ s.live, Cores host (marked job) ∧ job = topologyWith host (marked job)
  union : s.logicalUsedTopology = topologyWith host fun i => s.live.any (marked · i)

variable {s s' : CoreSystem}

theorem Inv.cores (hinv : Inv host s) : Cores host fun i => s.live.any (marked · i) := by
  intro i hi
  obtain ⟨job, hjob, hmarked⟩ := List.any_eq_true.mp hi
  exact (hinv.jobs job hjob).1 i hmarked

theorem Inv.grants (h : Letters host) (hinv : Inv host s) {action : CoreAction} {result : Binding}
    (hallocate : action.allocate host s.logicalUsedTopology = some result) :
    result.Grants host fun i => s.live.any (marked · i) := by
  rw [hinv.union] at hallocate
  cases action with
  | explicit listOfSockets listOfCores =>
      cases hallocate
      exact bindingExplicit_grants h
  | striding amount stepsize startAtSocket startAtCore automatic =>
      cases hallocate
      exact getStriding_grants h hinv.cores
  | linear amount =>
      cases hallocate
      exact getLinear_grants h hinv.cores
  | free k withLength => cases hallocate

theorem Inv.exclusive (h : Letters host) (hinv : Inv host s) : Exclusive host s where
  disjoint := hinv.disjoint
  jobs := hinv.jobs
  union := hinv.union
  unchanged action result hallocate hnone := by
    rcases hinv.grants h hallocate with ⟨-, hsame⟩ | ⟨J, -, -, hjob, -⟩
    · rw [hsame, hinv.union]
    · rw [hnone] at hjob
      cases hjob

theorem Inv.allocate (h : Letters host) (hinv : Inv host s) {result : Binding}
    (hresult : result.Grants host fun i => s.live.any (marked · i)) :
    Inv host ⟨result.logicalUsedTopology, result.job.toList ++ s.live⟩ := by
  rcases hresult with ⟨hjob, hsame⟩ | ⟨J, hJ, hnew, hjob, hunion⟩
  · rw [hjob, hsame, ← hinv.union]
    exact hinv
  · rw [hjob, hunion]
    refine ⟨List.pairwise_cons.mpr ⟨fun job hmem i hi => ?_, hinv.disjoint⟩, fun job hmem => ?_, ?_⟩
    · rw [marked_topologyWith h hJ] at hi
      have hfree := hnew i hi.1
      rw [List.any_eq_false] at hfree
      exact hfree job hmem hi.2
    · rcases List.mem_cons.mp hmem with rfl | hmem
      · have hmarked : marked (topologyWith host J) = J := by
          funext i
          exact marked_topologyWith h hJ
        rw [hmarked]
        exact ⟨hJ, rfl⟩
      · exact hinv.jobs job hmem
    · dsimp only
      congr 1
      funext i
      simp [marked_topologyWith h hJ, Bool.or_comm]

theorem Inv.free (h : Letters host) (hinv : Inv host s) {k size : ℕ} {job : List Char}
    (hjob : s.live[k]? = some job) (hsize : host.length ≤ size) :
    Inv host ⟨(freeFrom size job s.logicalUsedTopology).2, s.live.eraseIdx k⟩ := by
  obtain ⟨hk, hget⟩ := List.getElem?_eq_some_iff.mp hjob
  have hmem : job ∈ s.live := List.mem_of_getElem? hjob
  have hperm : (job :: s.live.eraseIdx k).Perm s.live := by
    rw [← hget]
    exact List.getElem_cons_eraseIdx_perm hk
  have hsymm : ∀ {a b : List Char}, (∀ i, ¬ (marked a i = true ∧ marked b i = true)) →
      ∀ i, ¬ (marked b i = true ∧ marked a i = true) := fun hab i hi => hab i hi.symm
  have hpairwise := (hperm.pairwise_iff hsymm).mpr hinv.disjoint
  rw [List.pairwise_cons] at hpairwise
  refine ⟨hpairwise.2, fun job' hmem' => hinv.jobs job' (List.mem_of_mem_eraseIdx hmem'), ?_⟩
  have hsub : ∀ i, marked job i = true → s.live.any (marked · i) = true := fun i hi =>
    List.any_eq_true.mpr ⟨job, hmem, hi⟩
  have hfreed := freeFrom_topologyWith h hsize hsub
  rw [← hinv.union, ← (hinv.jobs job hmem).2] at hfreed
  rw [hfreed]
  dsimp only
  congr 1
  funext i
  have hany : s.live.any (marked · i) = (job :: s.live.eraseIdx k).any (marked · i) :=
    hperm.symm.any_eq
  rw [hany, List.any_cons, Bool.eq_iff_iff]
  simp only [Bool.and_eq_true, Bool.or_eq_true, Bool.not_eq_true', List.any_eq_true]
  constructor
  · rintro ⟨hmarked | hmarked, hnot⟩
    · exact absurd hmarked (by simp [hnot])
    · exact hmarked
  · rintro ⟨job', hmem', hmarked⟩
    refine ⟨.inr ⟨job', hmem', hmarked⟩, ?_⟩
    rw [← Bool.not_eq_true]
    exact fun hi => hpairwise.1 job' hmem' i ⟨hi, hmarked⟩

theorem Inv.step (h : Letters host) (hinv : Inv host s) {action : CoreAction}
    (hlen : host.length ≤ 1000000 ∨ ∀ k, action ≠ .free k false)
    (hstep : s.step host action = some s') : Inv host s' := by
  cases haction : action.allocate host s.logicalUsedTopology with
  | some result =>
      have hgrants := hinv.grants h haction
      cases action with
      | free k withLength => cases haction
      | _ =>
          simp only [CoreSystem.step, haction, Option.map_some, Option.some.injEq] at hstep
          subst hstep
          exact hinv.allocate h hgrants
  | none =>
      cases action with
      | free k withLength =>
          simp only [CoreSystem.step] at hstep
          cases hjob : s.live[k]? with
          | none => simp [hjob] at hstep
          | some job =>
              simp only [hjob, Option.some.injEq] at hstep
              subst hstep
              have hjoblen : job.length = host.length := by
                rw [(hinv.jobs job (List.mem_of_getElem? hjob)).2, length_topologyWith]
              rw [freeTopology]
              apply hinv.free h hjob
              cases withLength with
              | true =>
                  simp only [if_true]
                  rw [if_neg (by omega)]
                  omega
              | false =>
                  have hbound := hlen.resolve_right fun hne => hne k rfl
                  simpa using hbound
      | _ => cases haction

theorem Inv.run (h : Letters host) {actions : List CoreAction}
    (hlen : host.length ≤ 1000000 ∨ ∀ k, CoreAction.free k false ∉ actions)
    (hrun : run host actions = some s) : Inv host s := by
  apply (Machine.Run.of_foldlM actions hrun).invariant
    (P := fun hist s => (host.length ≤ 1000000 ∨ ∀ k, CoreAction.free k false ∉ hist) →
      Inv host s) ?_ ?_ hlen
  · intro _
    exact ⟨.nil, fun job hjob => (List.not_mem_nil hjob).elim, topologyWith_none.symm⟩
  · intro hist s action s' hinv hstep hlen
    have hbefore : host.length ≤ 1000000 ∨ ∀ k, CoreAction.free k false ∉ hist :=
      hlen.imp_right fun hnot k hmem => hnot k (List.mem_append_left _ hmem)
    refine (hinv hbefore).step h (hlen.imp_right fun hnot k heq => hnot k ?_) hstep
    rw [heq]
    exact List.mem_append_right _ (List.mem_singleton.mpr rfl)

/-- In every reachable state every core in use has one job, as long as the strings that are freed
without a length have no more than 1000000 characters. -/
theorem coreAccounting_exclusive {sockets : List (List ℕ)} {actions : List CoreAction}
    (hlen : (getTopology sockets).length ≤ 1000000 ∨ ∀ k, CoreAction.free k false ∉ actions)
    (hrun : run (getTopology sockets) actions = some s) : Exclusive (getTopology sockets) s :=
  (Inv.run letters_getTopology hlen hrun).exclusive letters_getTopology

/-- Two sockets with two cores: three cores in a row, then the last core by its socket and its
number, then the first job ends and a job strides from core to core. -/
theorem coreAccounting_exclusive_sockets :
    ∃ s, run (getTopology [[2, 2], [2, 2]]) [.linear 3, .explicit [1] [0], .free 1 false,
        .striding 2 2 0 0 true] = some s ∧
      s.live = ["ScttCTTScttCTT".toList, "SCTTCTTSCTTctt".toList] ∧
      Exclusive (getTopology [[2, 2], [2, 2]]) s :=
  have hrun : run (getTopology [[2, 2], [2, 2]]) [.linear 3, .explicit [1] [0], .free 1 false,
      .striding 2 2 0 0 true] = some ⟨"ScttCTTScttctt".toList,
        ["ScttCTTScttCTT".toList, "SCTTCTTSCTTctt".toList]⟩ := by decide +kernel
  ⟨_, hrun, rfl, coreAccounting_exclusive (.inl (by decide)) hrun⟩

theorem charAt_freeFrom_of_le {size : ℕ} {logical : List Char} (hi : size ≤ i) :
    charAt (freeFrom size topology logical).2 i = charAt logical i := by
  induction size generalizing topology logical i with
  | zero => rfl
  | succ size ih =>
      obtain ⟨i, rfl⟩ := Nat.exists_eq_add_of_le' (Nat.le_of_add_left_le hi)
      cases topology with
      | nil => rfl
      | cons t topology =>
          cases logical with
          | nil => rfl
          | cons l logical =>
              have htail : ∀ x, charAt (x :: (freeFrom size topology logical).2) (i + 1) =
                  charAt (l :: logical) (i + 1) := fun x => ih (by omega)
              rw [freeFrom]
              split_ifs
              · rfl
              · exact htail 'C'
              · rfl
              · exact htail 'T'
              · rfl
              · exact htail 'S'
              · exact htail l

section Threads
variable {n : ℕ}

theorem charAt_getTopology_thread (hk : 1 < k) (hk' : k ≤ n + 1) :
    charAt (getTopology [[n]]) k = 'T' := by
  obtain ⟨k, rfl⟩ := Nat.exists_eq_add_of_le' hk
  have htopology : getTopology [[n]] = 'S' :: 'C' :: List.replicate n 'T' := by
    simp [getTopology]
  rw [htopology, charAt_eq (by simp; omega)]
  simp

/-- A host with one core of many threads. A job takes the core, and its topology is freed without
its length. -/
theorem run_threads : ∃ J : ℕ → Bool, J 1 = true ∧
    run (getTopology [[n]]) [.explicit [0] [0], .free 0 false] =
      some ⟨(freeFrom 1000000 (topologyWith (getTopology [[n]]) J)
        (topologyWith (getTopology [[n]]) J)).2, []⟩ := by
  have hpos : getPositionInTopology 0 0 (getTopology [[n]]) = 1 := rfl
  have hchar : charAt (getTopology [[n]]) 1 = 'C' := rfl
  have hletters := @letters_getTopology [[n]]
  obtain ⟨J, hJ, hjob⟩ : ∃ J : ℕ → Bool, J 1 = true ∧
      accountCore (getTopology [[n]]) 1 = topologyWith (getTopology [[n]]) J := by
    have hmark := accountCore_topologyWith (A := fun _ => false) hletters hchar
    rw [topologyWith_none] at hmark
    exact ⟨_, rfl, hmark⟩
  have haccount : accountJobOnTopology (getTopology [[n]]) (topologyWith (getTopology [[n]]) J) =
      some (topologyWith (getTopology [[n]]) J) := by
    have hboth := accountJobOnTopology_topologyWith (A := fun _ => false) (B := J) hletters
    simpa only [topologyWith_none, Bool.false_or] using hboth
  refine ⟨J, hJ, ?_⟩
  have hexplicit : bindingExplicitCheckAndAccount (getTopology [[n]]) (getTopology [[n]]) [0] [0] =
      ⟨some (topologyWith (getTopology [[n]]) J), topologyWith (getTopology [[n]]) J⟩ := by
    simp [bindingExplicitCheckAndAccount, accountPairs, hpos, hchar, hjob, haccount]
  simp [run, CoreSystem.step, CoreAction.allocate, hexplicit, freeTopology]

theorem not_exclusive_threads (hn : 1000000 ≤ n) : ∃ s,
    run (getTopology [[n]]) [.explicit [0] [0], .free 0 false] = some s ∧
      ¬ Exclusive (getTopology [[n]]) s := by
  obtain ⟨J, hJ, hrun⟩ := @run_threads n
  refine ⟨_, hrun, fun hexclusive => ?_⟩
  have hthread := charAt_getTopology_thread (k := n + 1) (n := n) (by omega) le_rfl
  have hchar : charAt (getTopology [[n]]) 1 = 'C' := rfl
  have hcore : coreOf (getTopology [[n]]) (n + 1) = 1 :=
    (coreOf_eq_iff (by rw [hchar]; decide)).mpr
      ⟨by omega, fun k hk hk' => charAt_getTopology_thread hk hk'⟩
  have hlast := congrArg (fun topology => charAt topology (n + 1)) hexclusive.union
  simp only [List.any_nil, topologyWith_none] at hlast
  rw [charAt_freeFrom_of_le (by omega), charAt_topologyWith, hcore, if_pos hJ, hthread] at hlast
  exact absurd hlast (by decide)

end Threads

/-- Threads behind the first million characters stay in use for ever. -/
theorem free_leaves_threads : ¬ ∀ (sockets : List (List ℕ)) (actions : List CoreAction)
    (s : CoreSystem), run (getTopology sockets) actions = some s →
      Exclusive (getTopology sockets) s := by
  intro h
  obtain ⟨s, hrun, hnot⟩ := not_exclusive_threads (le_refl 1000000)
  exact hnot (h _ _ s hrun)

end CoreSystem

end GridEngine
