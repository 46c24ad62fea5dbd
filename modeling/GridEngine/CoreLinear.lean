import GridEngine.CoreFilling

/-!
# Linear binding

`get_free_sockets` sees every second socket only and counts those it sees, so that the sockets that
are filled first are not the free ones.
-/

namespace GridEngine
variable {host : List Char} {A : ℕ → Bool} {i k pos socket amount : ℕ}

/-- The number of cores of a socket that are in use. -/
def usedCores (host : List Char) (A : ℕ → Bool) (socket : ℕ) : ℕ :=
  Nat.count (fun k => (charAt host k = 'C' ∧ A k = true) ∧ socketsBefore host k = socket + 1)
    host.length

/-- The number of sockets. -/
def socketCount (host : List Char) : ℕ := socketsBefore host host.length

theorem usedCores_eq_zero_iff : usedCores host A socket = 0 ↔
    ∀ p, charAt host p = 'C' → socketsBefore host p = socket + 1 → A p = false := by
  rw [usedCores, Nat.count_iff_forall_not]
  constructor
  · intro hnone p hcore hsocket
    have hlen : p < host.length := lt_length_of_charAt (by rw [hcore]; decide)
    have hnot := hnone p hlen
    by_contra hused
    exact hnot ⟨⟨hcore, by simpa using hused⟩, hsocket⟩
  · rintro hall p - ⟨⟨hcore, hused⟩, hsocket⟩
    rw [hall p hcore hsocket] at hused
    cases hused

/-- The inner loop of `get_free_sockets`: it looks at the cores up to the next socket, and the outer
loop goes on behind that one. -/
theorem nextSocket (h : Letters host) {rest : List Char}
    (hrest : (topologyWith host A).drop i = rest) :
    (((rest.takeWhile fun y => !isSocket y).all (· ≠ 'c')) = true ↔
        ∀ p, i ≤ p → charAt host p = 'C' → socketsBefore host p = socketsBefore host i →
          A p = false) ∧
      ((rest.dropWhile fun y => !isSocket y).drop 1 = [] ∧
          socketCount host ≤ socketsBefore host i ∨
        ∃ j, (rest.dropWhile fun y => !isSocket y).drop 1 = (topologyWith host A).drop j ∧
          socketsBefore host j = socketsBefore host i + 1) := by
  induction rest generalizing i with
  | nil =>
      have hlen := List.drop_eq_nil_iff.mp hrest
      rw [length_topologyWith] at hlen
      refine ⟨iff_of_true rfl fun p hle hcore _ => ?_, .inl ⟨rfl, ?_⟩⟩
      · have hlt : p < host.length := lt_length_of_charAt (by rw [hcore]; decide)
        omega
      · exact socketsBefore_mono hlen
  | cons x rest ih =>
      obtain ⟨hx, hrest'⟩ := charAt_drop_cons hrest
      have hsock := isSocket_topologyWith (A := A) (i := i) h
      rw [hx] at hsock
      have hcount := socketsBefore_succ host i
      by_cases hS : isSocket x = true
      · rw [← hsock, if_pos hS] at hcount
        rw [List.takeWhile_cons_of_neg (by simp [hS]), List.dropWhile_cons_of_neg (by simp [hS])]
        refine ⟨iff_of_true rfl fun p hle hcore hsame => ?_, .inr ⟨i + 1, hrest'.symm, hcount⟩⟩
        have hne : p ≠ i := by
          rintro rfl
          have hnot := isSocket_core hcore
          rw [← hsock, hS] at hnot
          cases hnot
        have hmono : socketsBefore host (i + 1) ≤ socketsBefore host p :=
          socketsBefore_mono (by omega)
        omega
      · have hsame : socketsBefore host (i + 1) = socketsBefore host i := by
          rw [hcount, ← hsock, if_neg hS, add_zero]
        have hused := charAt_eq_used_iff (A := A) (i := i) h
        rw [hx] at hused
        obtain ⟨hall, hnext⟩ := ih hrest'
        rw [hsame] at hall hnext
        rw [List.takeWhile_cons_of_pos (by simpa using hS),
          List.dropWhile_cons_of_pos (by simpa using hS), List.all_cons, Bool.and_eq_true, hall]
        refine ⟨?_, hnext⟩
        rw [decide_eq_true_eq, ne_eq, hused]
        constructor
        · rintro ⟨hfirst, hlater⟩ p hle hcore hp
          by_cases hpi : p = i
          · subst hpi
            by_contra hbusy
            exact hfirst ⟨hcore, by simpa using hbusy⟩
          · exact hlater p (by omega) hcore hp
        · intro hlater
          refine ⟨fun hbusy => ?_, fun p hle => hlater p (by omega)⟩
          rw [hlater i le_rfl hbusy.1 rfl] at hbusy
          cases hbusy.2

theorem freeSocketsFrom_spec (socketNumber : ℕ) (h : Letters host) {fuel : ℕ} {rest : List Char}
    (hrest : (topologyWith host A).drop i = rest) (hfuel : rest.length ≤ fuel) :
    (freeSocketsFrom fuel rest socketNumber).Pairwise (· < ·) ∧
      ∀ j, j ∈ freeSocketsFrom fuel rest socketNumber ↔ ∃ d, j = socketNumber + d ∧
        socketsBefore host i + 2 * d < socketCount host ∧
          usedCores host A (socketsBefore host i + 2 * d) = 0 := by
  have hend : rest = [] → ∀ d, ¬ socketsBefore host i + 2 * d < socketCount host := by
    rintro rfl d
    have hlen := List.drop_eq_nil_iff.mp hrest
    rw [length_topologyWith] at hlen
    have hmono : socketCount host ≤ socketsBefore host i := socketsBefore_mono hlen
    omega
  induction fuel generalizing i rest socketNumber with
  | zero =>
      have hnil := List.length_eq_zero_iff.mp (Nat.le_zero.mp hfuel)
      rw [freeSocketsFrom]
      refine ⟨.nil, fun j => iff_of_false List.not_mem_nil ?_⟩
      rintro ⟨d, -, hd, -⟩
      exact hend hnil d hd
  | succ fuel ih =>
      cases rest with
      | nil =>
          rw [freeSocketsFrom]
          refine ⟨.nil, fun j => iff_of_false List.not_mem_nil ?_⟩
          rintro ⟨d, -, hd, -⟩
          exact hend rfl d hd
      | cons x rest =>
          obtain ⟨hx, hrest'⟩ := charAt_drop_cons hrest
          have hsock := isSocket_topologyWith (A := A) (i := i) h
          rw [hx] at hsock
          have hcount := socketsBefore_succ host i
          rw [List.length_cons] at hfuel
          rw [freeSocketsFrom]
          by_cases hS : isSocket x = true
          · rw [← hsock, if_pos hS] at hcount
            rw [if_pos hS]
            obtain ⟨hunused, hnext⟩ := nextSocket h hrest'
            have hfirst : ((rest.takeWhile fun y => !isSocket y).all (· ≠ 'c')) = true ↔
                usedCores host A (socketsBefore host i) = 0 := by
              rw [hunused, hcount, usedCores_eq_zero_iff]
              refine ⟨fun hall p hcore hp => hall p ?_ hcore hp, fun hall p _ => hall p⟩
              by_contra hle
              have hmono : socketsBefore host p ≤ socketsBefore host i :=
                socketsBefore_mono (by omega)
              omega
            have hlt : socketsBefore host i < socketCount host := by
              have hi : i < host.length := by
                apply lt_length_of_charAt
                intro hend
                rw [hsock, hend] at hS
                cases hS
              have hmono : socketsBefore host (i + 1) ≤ socketCount host := socketsBefore_mono hi
              omega
            -- the numbers of the sockets seen later
            have hbehind : ∃ behind, freeSocketsFrom fuel
                ((rest.dropWhile fun y => !isSocket y).drop 1) (socketNumber + 1) = behind ∧
                behind.Pairwise (· < ·) ∧ ∀ j, j ∈ behind ↔ ∃ d, j = socketNumber + (d + 1) ∧
                  socketsBefore host i + 2 * (d + 1) < socketCount host ∧
                    usedCores host A (socketsBefore host i + 2 * (d + 1)) = 0 := by
              rcases hnext with ⟨hnil, hlast⟩ | ⟨j, hj, hsockets⟩
              · refine ⟨[], by rw [hnil]; cases fuel <;> rfl, .nil, fun j => ?_⟩
                refine iff_of_false List.not_mem_nil ?_
                rintro ⟨d, -, hd, -⟩
                omega
              · have hlen : ((topologyWith host A).drop j).length ≤ fuel := by
                  rw [← hj]
                  have hsuffix := List.dropWhile_suffix (l := rest) fun y => !isSocket y
                  have hsub := hsuffix.sublist.length_le
                  rw [List.length_drop]
                  omega
                obtain ⟨hsorted, hmem⟩ :=
                  ih (i := j) (socketNumber + 1) rfl hlen fun hnil d => by
                    have hlen := List.drop_eq_nil_iff.mp hnil
                    rw [length_topologyWith] at hlen
                    have hmono : socketCount host ≤ socketsBefore host j := socketsBefore_mono hlen
                    omega
                refine ⟨_, by rw [hj], hsorted, fun j' => (hmem j').trans ?_⟩
                refine exists_congr fun d => ?_
                rw [hsockets, hcount, show socketNumber + 1 + d = socketNumber + (d + 1) by omega,
                  show socketsBefore host i + 1 + 1 + 2 * d = socketsBefore host i + 2 * (d + 1)
                    by omega]
            obtain ⟨behind, heq, hsorted, hmem⟩ := hbehind
            dsimp only
            rw [heq]
            have hsplit : ∀ j, (∃ d, j = socketNumber + d ∧
                socketsBefore host i + 2 * d < socketCount host ∧
                  usedCores host A (socketsBefore host i + 2 * d) = 0) ↔
                j = socketNumber ∧ usedCores host A (socketsBefore host i) = 0 ∨ j ∈ behind := by
              intro j
              rw [hmem, ← Nat.or_exists_add_one]
              simp [hlt]
            by_cases hfree : usedCores host A (socketsBefore host i) = 0
            · rw [if_pos (hfirst.mpr hfree)]
              refine ⟨List.pairwise_cons.mpr ⟨fun j hj => ?_, hsorted⟩, fun j => ?_⟩
              · obtain ⟨d, rfl, -⟩ := (hmem j).mp hj
                omega
              · rw [List.mem_cons, hsplit, and_iff_left hfree]
            · rw [if_neg (mt hfirst.mp hfree)]
              refine ⟨hsorted, fun j => ?_⟩
              rw [hsplit, or_iff_right fun hj => hfree hj.2]
          · have hsame : socketsBefore host (i + 1) = socketsBefore host i := by
              rw [hcount, ← hsock, if_neg hS, add_zero]
            rw [if_neg hS, ← hsame]
            refine ih _ hrest' (by omega) fun hnil d => ?_
            rw [hnil] at hrest'
            have hlen := List.drop_eq_nil_iff.mp hrest'
            rw [length_topologyWith] at hlen
            have hmono : socketCount host ≤ socketsBefore host (i + 1) := socketsBefore_mono hlen
            omega

instance : DecidableRel (MoreFree host A) := fun s t => by
  unfold MoreFree
  infer_instance

/-- The sockets that are filled first: socket `k` where socket `2 * k` exists and has no core in
use. -/
def firstSockets (host : List Char) (A : ℕ → Bool) : List ℕ :=
  (List.range (socketCount host)).filter fun k =>
    2 * k < socketCount host ∧ usedCores host A (2 * k) = 0

/-- The others, by the number of their free cores. -/
def laterSockets (host : List Char) (A : ℕ → Bool) : List ℕ :=
  ((List.range (socketCount host)).filter fun k => k ∉ firstSockets host A).insertionSort
    (MoreFree host A)

/-- The order in which the linear allocation visits the sockets. -/
def visitOrder (host : List Char) (A : ℕ → Bool) : List ℕ :=
  firstSockets host A ++ laterSockets host A

theorem getFreeSockets_eq (h : Letters host) :
    getFreeSockets (topologyWith host A) = firstSockets host A := by
  obtain ⟨hsorted, hmem⟩ := freeSocketsFrom_spec (A := A) (i := 0) 0 h List.drop_zero le_rfl
  have hsorted' : (firstSockets host A).Pairwise (· < ·) := List.pairwise_lt_range.filter _
  have hzero : socketsBefore host 0 = 0 := Nat.count_zero _
  refine List.Perm.eq_of_pairwise (fun a b _ _ hab hba => absurd hab (not_lt.mpr hba.le)) hsorted
    hsorted' ((List.perm_ext_iff_of_nodup hsorted.nodup hsorted'.nodup).mpr fun k => ?_)
  rw [hmem, firstSockets, List.mem_filter, List.mem_range, decide_eq_true_eq, hzero]
  constructor
  · rintro ⟨d, rfl, hlt, hunused⟩
    rw [zero_add] at hlt hunused
    rw [zero_add]
    exact ⟨by omega, hlt, hunused⟩
  · rintro ⟨-, hlt, hunused⟩
    refine ⟨k, (zero_add k).symm, ?_, ?_⟩
    · rwa [zero_add]
    · rwa [zero_add]

instance : Std.Total (MoreFree host A) where
  total s t := by
    simp only [MoreFree]
    omega

instance : IsTrans ℕ (MoreFree host A) where
  trans r s t := by
    simp only [MoreFree]
    omega

theorem laterSockets_perm : (laterSockets host A).Perm
    ((List.range (socketCount host)).filter fun k => k ∉ firstSockets host A) :=
  List.perm_insertionSort _ _

theorem mem_laterSockets : k ∈ laterSockets host A ↔
    k < socketCount host ∧ k ∉ firstSockets host A := by
  rw [laterSockets_perm.mem_iff, List.mem_filter, List.mem_range, decide_eq_true_eq]

theorem visitOrder_nodup : (visitOrder host A).Nodup := by
  rw [visitOrder, List.nodup_append']
  refine ⟨List.nodup_range.filter _, ?_, fun k hk hk' => (mem_laterSockets.mp hk').2 hk⟩
  exact laterSockets_perm.nodup_iff.mpr (List.nodup_range.filter _)

theorem mem_visitOrder : k ∈ visitOrder host A ↔ k < socketCount host := by
  rw [visitOrder, List.mem_append, mem_laterSockets]
  constructor
  · rintro (hk | hk)
    · exact List.mem_range.mp (List.mem_of_mem_filter hk)
    · exact hk.1
  · intro hk
    by_cases hfirst : k ∈ firstSockets host A
    · exact .inl hfirst
    · exact .inr ⟨hk, hfirst⟩

/-- The free cores in the order in which the sockets are visited. -/
def visitedCores (host : List Char) (A : ℕ → Bool) : List ℕ := freeOf host A (visitOrder host A)

theorem mem_visitedCores (hsockets : BehindSockets host) :
    k ∈ visitedCores host A ↔ charAt host k = 'C' ∧ A k = false := by
  rw [visitedCores, freeOf, List.mem_flatMap]
  constructor
  · rintro ⟨s, -, hk⟩
    obtain ⟨⟨hcore, hfree⟩, -⟩ := mem_freeList.mp hk
    exact ⟨hcore, by simpa using hfree⟩
  · rintro ⟨hcore, hfree⟩
    have hpos := hsockets k hcore
    have hlen : k < host.length := lt_length_of_charAt (by rw [hcore]; decide)
    have hmono : socketsBefore host k ≤ socketCount host := socketsBefore_mono hlen.le
    refine ⟨socketsBefore host k - 1, mem_visitOrder.mpr (by omega),
      mem_freeList.mpr ⟨⟨hcore, ?_⟩, ?_⟩⟩
    · simp [hfree]
    · omega

theorem visitedCores_nodup (host : List Char) (A : ℕ → Bool) : (visitedCores host A).Nodup := by
  rw [visitedCores, freeOf, List.nodup_flatMap]
  refine ⟨fun s _ => List.Nodup.filter _ List.nodup_range', ?_⟩
  refine visitOrder_nodup.imp fun {s t} hne k hk hk' => hne ?_
  have hs := (mem_freeList.mp hk).2
  have ht := (mem_freeList.mp hk').2
  omega

/-- The allocation for a number of cores. -/
def linearBinding (host : List Char) (A : ℕ → Bool) (amount : ℕ) : Binding × List (ℤ × ℤ) :=
  getLinearAutomaticSocketCoreListAndAccount (topologyWith host A) amount

/-- The sockets behind the first ones are filled up with what is left to take. -/
theorem fillLater_spec (h : Letters host) (hsockets : BehindSockets host) :
    fillSockets ((amount : ℤ) -
          (((freeOf host A (firstSockets host A)).take amount).length : ℤ)).toNat
        ((amount : ℤ) - (((freeOf host A (firstSockets host A)).take amount).length : ℤ))
        (topologyWith host (markAll A ((freeOf host A (firstSockets host A)).take amount)))
        (((freeOf host A (firstSockets host A)).take amount).map (numbersOf host)) =
      (decide (amount ≤ (visitedCores host A).length),
        topologyWith host (markAll A ((visitedCores host A).take amount)),
        ((visitedCores host A).take amount).map (numbersOf host)) := by
  have hlater : (laterSockets host A).Nodup := (List.nodup_append'.mp visitOrder_nodup).2.1
  have hsplit : visitedCores host A =
      freeOf host A (firstSockets host A) ++ freeOf host A (laterSockets host A) := by
    rw [visitedCores, visitOrder, freeOf, List.flatMap_append, freeOf, freeOf]
  generalize hfirst : freeOf host A (firstSockets host A) = first at hsplit
  have hsame : ∀ s, s ∉ firstSockets host A → freeList host (markAll A first) s =
      freeList host A s := by
    intro s hs
    refine freeList_markAll fun k hk heq => hs ?_
    rw [← hfirst, freeOf, List.mem_flatMap] at hk
    obtain ⟨t, ht, hk⟩ := hk
    have hsocket := (mem_freeList.mp hk).2
    rwa [show s = t by omega]
  by_cases henough : amount ≤ first.length
  · have hlen : (first.take amount).length = amount := by
      rw [List.length_take, min_eq_left henough]
    rw [hlen, sub_self, fillSockets_zero, hsplit, List.take_append_of_le_length henough,
      decide_eq_true (by rw [List.length_append]; omega)]
  · have hall : first.take amount = first := List.take_of_length_le (by omega)
    have hleft : (amount : ℤ) - (first.length : ℤ) = ((amount - first.length : ℕ) : ℤ) := by
      omega
    have hfree : freeOf host (markAll A first) (laterSockets host A) =
        freeOf host A (laterSockets host A) :=
      List.flatMap_congr fun s hs => hsame s (mem_laterSockets.mp hs).2
    rw [hall, hleft, Int.toNat_natCast, fillSockets_spec _ h hsockets hlater ?_ ?_ le_rfl, hfree,
      hsplit, List.take_append, hall, markAll_append, List.map_append, List.length_append]
    · congr 1
      rw [decide_eq_decide]
      omega
    · refine (List.pairwise_insertionSort _ _).imp_of_mem fun {s t} hs ht hmore => ?_
      have hs' := hsame s (mem_laterSockets.mp hs).2
      have ht' := hsame t (mem_laterSockets.mp ht).2
      rwa [MoreFree, ← length_freeList, ← length_freeList, hs', ht', length_freeList,
        length_freeList]
    · intro s hs
      rw [← length_freeList, List.length_eq_zero_iff, List.eq_nil_iff_forall_not_mem]
      intro k hk
      obtain ⟨⟨hcore, hunmarked⟩, hsocket⟩ := mem_freeList.mp hk
      rw [markAll, Bool.not_eq_true', Bool.or_eq_false_iff, decide_eq_false_iff_not] at hunmarked
      have hlen : k < host.length := lt_length_of_charAt (by rw [hcore]; decide)
      have hmono : socketsBefore host k ≤ socketCount host := socketsBefore_mono hlen.le
      rw [mem_laterSockets] at hs
      have hmem : s ∈ firstSockets host A := by
        by_contra hnot
        exact hs ⟨by omega, hnot⟩
      refine hunmarked.1 ?_
      rw [← hfirst, freeOf, List.mem_flatMap]
      exact ⟨s, hmem, mem_freeList.mpr ⟨⟨hcore, by simp [hunmarked.2]⟩, hsocket⟩⟩

/-- The linear allocation takes the first cores in the order in which it visits them. -/
theorem linearBinding_spec (A : ℕ → Bool) (amount : ℕ) (h : Letters host)
    (hsockets : BehindSockets host) :
    (amount ≤ (visitedCores host A).length ∧ (linearBinding host A amount).1.job =
          some (topologyWith host fun k => decide (k ∈ (visitedCores host A).take amount)) ∧
        (linearBinding host A amount).2 =
          ((visitedCores host A).take amount).map (numbersOf host)) ∨
      (visitedCores host A).length < amount ∧ (linearBinding host A amount).1.job = none := by
  have hfirst : (firstSockets host A).Nodup := List.nodup_range.filter _
  have hfill := fillFreeSockets_spec (B := A) (n := amount) 0 [] h hfirst
  rw [zero_add, zero_add, List.nil_append] at hfill
  rw [linearBinding, getLinearAutomaticSocketCoreListAndAccount, getFreeSockets_eq h, hfill]
  dsimp only
  rw [fillLater_spec h hsockets]
  dsimp only
  by_cases henough : amount ≤ (visitedCores host A).length
  · rw [if_pos (decide_eq_true henough), createTopologyUsedPerJob_topologyWith h]
    refine .inl ⟨henough, ?_, rfl⟩
    dsimp only
    congr 2
    funext k
    by_cases hk : k ∈ (visitedCores host A).take amount
    · have hfree := ((mem_visitedCores hsockets).mp (List.mem_of_mem_take hk)).2
      simp [markAll, hk, hfree]
    · simp [markAll, hk]
  · rw [if_neg (by simpa using henough)]
    exact .inr ⟨not_le.mp henough, rfl⟩

theorem behindSockets_getTopology {sockets : List (List ℕ)} :
    BehindSockets (getTopology sockets) := by
  intro k hcore
  cases sockets with
  | nil =>
      rw [charAt_of_le (Nat.zero_le k)] at hcore
      exact absurd hcore (by decide)
  | cons cores sockets =>
      have hfirst : charAt (getTopology (cores :: sockets)) 0 = 'S' := rfl
      have hone : socketsBefore (getTopology (cores :: sockets)) 1 = 1 := by
        rw [socketsBefore_succ, hfirst]
        rfl
      have hk : 1 ≤ k := by
        by_contra hlt
        rw [show k = 0 by omega, hfirst] at hcore
        exact absurd hcore (by decide)
      have hmono : socketsBefore (getTopology (cores :: sockets)) 1 ≤
          socketsBefore (getTopology (cores :: sockets)) k := socketsBefore_mono hk
      omega

/-- The number of free cores of the host. -/
def totalFree (host : List Char) (A : ℕ → Bool) : ℕ :=
  Nat.count (fun k => charAt host k = 'C' ∧ A k = false) host.length

theorem length_visitedCores (hsockets : BehindSockets host) :
    (visitedCores host A).length = totalFree host A := by
  rw [totalFree, Nat.count, List.countP_eq_length_filter]
  refine ((List.perm_ext_iff_of_nodup (visitedCores_nodup _ _) (List.nodup_range.filter _)).mpr
    fun k => ?_).length_eq
  rw [mem_visitedCores hsockets, List.mem_filter, List.mem_range, decide_eq_true_eq]
  refine ⟨fun hk => ⟨lt_length_of_charAt ?_, hk⟩, fun hk => hk.2⟩
  rw [hk.1]
  decide

/-- The pair of a list of sockets and a list of cores denotes the core at `pos`. -/
def Denotes (host : List Char) (pair : ℤ × ℤ) (pos : ℕ) : Prop :=
  ∃ socket core : ℕ, pair = ((socket : ℤ), (core : ℤ)) ∧ IsCore host socket core pos

theorem denotes_numbersOf (hsockets : BehindSockets host) (h : charAt host pos = 'C') :
    Denotes host (numbersOf host pos) pos := by
  have hpos := hsockets pos h
  exact ⟨_, _, rfl, h, rfl, by omega, rfl⟩

theorem Denotes.unique {pair : ℤ × ℤ} {pos' : ℕ} (h : Denotes host pair pos)
    (h' : Denotes host pair pos') : pos = pos' := by
  obtain ⟨socket, core, rfl, hcore⟩ := h
  obtain ⟨socket', core', heq, hcore'⟩ := h'
  rw [Prod.mk.injEq, Nat.cast_inj, Nat.cast_inj] at heq
  obtain ⟨rfl, rfl⟩ := heq
  exact hcore.unique hcore'

/-- No core of the socket of this core is in use. -/
def SocketUnused (host : List Char) (A : ℕ → Bool) (pos : ℕ) : Prop :=
  usedCores host A (socketsBefore host pos - 1) = 0

/-- The allocation is possible when there are enough free cores. The pairs it returns denote the
cores it gives to the job, and a core of a socket in use is among them only if all cores of the
unused sockets are. -/
structure FillsFreeSockets (host : List Char) (A : ℕ → Bool) (amount : ℕ)
    (result : Binding × List (ℤ × ℤ)) : Prop where
  possible_iff : result.1.job.isSome = true ↔ amount ≤ totalFree host A
  takes : ∀ job, result.1.job = some job → result.2.length = amount ∧ result.2.Nodup ∧
    ∃ J : ℕ → Bool, job = topologyWith host J ∧
      (∀ pos, J pos = true ↔ ∃ pair ∈ result.2, Denotes host pair pos) ∧
      (∀ pair ∈ result.2, ∃ pos, Denotes host pair pos) ∧
      ∀ p q, J p = true → ¬ SocketUnused host A p → charAt host q = 'C' →
        SocketUnused host A q → J q = true

/-- In the order of the visits the cores of unused sockets come first as far as it matters for this
amount. -/
def UnusedSocketsLead (host : List Char) (A : ℕ → Bool) (amount : ℕ) : Prop :=
  (∀ p ∈ (visitedCores host A).take amount, SocketUnused host A p) ∨
    ∀ q ∈ (visitedCores host A).drop amount, ¬ SocketUnused host A q

theorem SocketUnused.free (hsockets : BehindSockets host) (hcore : charAt host pos = 'C')
    (h : SocketUnused host A pos) : A pos = false :=
  usedCores_eq_zero_iff.mp h pos hcore (by have := hsockets pos hcore; omega)

/-- Linear binding fills the unused sockets first exactly when the order of the visits does. -/
theorem getLinear_fills_iff {sockets : List (List ℕ)} :
    FillsFreeSockets (getTopology sockets) A amount
        (linearBinding (getTopology sockets) A amount) ↔
      UnusedSocketsLead (getTopology sockets) A amount := by
  have h : Letters (getTopology sockets) := letters_getTopology
  have hsockets : BehindSockets (getTopology sockets) := behindSockets_getTopology
  generalize getTopology sockets = host at h hsockets
  have hmem := fun k => mem_visitedCores (A := A) (k := k) hsockets
  have htaken : ∀ {k}, k ∈ (visitedCores host A).take amount → charAt host k = 'C' := fun hk =>
    ((hmem _).mp (List.mem_of_mem_take hk)).1
  rcases linearBinding_spec A amount h hsockets with
    ⟨henough, hjob, hpairs⟩ | ⟨hfew, hjob⟩
  · have hcores : Cores host fun k => decide (k ∈ (visitedCores host A).take amount) :=
      fun k hk => htaken (of_decide_eq_true hk)
    have hsplit : ∀ k, k ∈ visitedCores host A ↔
        k ∈ (visitedCores host A).take amount ∨ k ∈ (visitedCores host A).drop amount := by
      intro k
      rw [← List.mem_append, List.take_append_drop]
    have hdenotes : ∀ k, k ∈ (visitedCores host A).take amount ↔
        ∃ pair ∈ ((visitedCores host A).take amount).map (numbersOf host),
          Denotes host pair k := by
      intro k
      constructor
      · intro hk
        exact ⟨_, List.mem_map_of_mem hk, denotes_numbersOf hsockets (htaken hk)⟩
      · rintro ⟨pair, hpair, hk⟩
        obtain ⟨k', hk', rfl⟩ := List.mem_map.mp hpair
        rwa [hk.unique (denotes_numbersOf hsockets (htaken hk'))]
    constructor
    · intro hfills
      obtain ⟨-, -, J, -, hmarks, -, hlead⟩ := hfills.takes _ hjob
      have hdisjoint := List.disjoint_take_drop (visitedCores_nodup host A)
        (le_refl amount)
      by_contra hnot
      rw [UnusedSocketsLead, not_or] at hnot
      push Not at hnot
      obtain ⟨⟨p, hp, hused⟩, q, hq, hunused⟩ := hnot
      have hcore : charAt host q = 'C' := ((hmem q).mp (List.mem_of_mem_drop hq)).1
      have hJ : ∀ k, J k = true ↔ k ∈ (visitedCores host A).take amount := by
        intro k
        rw [hmarks, hpairs, ← hdenotes]
      exact hdisjoint ((hJ q).mp (hlead p q ((hJ p).mpr hp) hused hcore hunused)) hq
    · intro hlead
      refine ⟨?_, fun job heq => ?_⟩
      · rw [hjob]
        exact iff_of_true rfl (henough.trans (length_visitedCores hsockets).le)
      · rw [hjob] at heq
        cases heq
        rw [hpairs]
        refine ⟨by rw [List.length_map, List.length_take, min_eq_left henough], ?_, _, rfl,
          fun pos => ?_, fun pair hpair => ?_, fun p q hp hused hcore hunused => ?_⟩
        · refine (((visitedCores_nodup _ _).sublist (List.take_sublist _ _)).map_on ?_)
          intro p hp q hq hsame
          have hdenoted := denotes_numbersOf hsockets (htaken hp)
          rw [hsame] at hdenoted
          exact hdenoted.unique (denotes_numbersOf hsockets (htaken hq))
        · rw [decide_eq_true_eq, hdenotes]
        · obtain ⟨p, hp, rfl⟩ := List.mem_map.mp hpair
          exact ⟨p, denotes_numbersOf hsockets (htaken hp)⟩
        · rw [decide_eq_true_eq] at hp ⊢
          have hq := (hmem q).mpr ⟨hcore, hunused.free hsockets hcore⟩
          refine ((hsplit q).mp hq).resolve_right fun hq => ?_
          rcases hlead with htake | hdrop
          · exact hused (htake p hp)
          · exact hdrop q hq hunused
  · have hdrop : (visitedCores host A).drop amount = [] := List.drop_of_length_le hfew.le
    refine iff_of_true ⟨?_, fun job heq => ?_⟩ (.inr fun q hq => ?_)
    · rw [hjob]
      refine iff_of_false (by simp) ?_
      rw [← length_visitedCores hsockets]
      exact not_le.mpr hfew
    · rw [hjob] at heq
      cases heq
    · rw [hdrop] at hq
      cases hq

/-- The second of three sockets has a core in use. The code takes the third socket, which has no
core in use, for the second one, and fills the second socket before the third. -/
theorem getLinear_fills_used : ¬ ∀ (sockets : List (List ℕ)) (A : ℕ → Bool) (amount : ℕ),
    Cores (getTopology sockets) A → 1 ≤ amount →
      FillsFreeSockets (getTopology sockets) A amount
        (linearBinding (getTopology sockets) A amount) := by
  intro h
  have hfills := h [[0, 0], [0, 0], [0, 0]] (fun k => k == 4) 3 (fun i hi => by
    rw [beq_iff_eq] at hi
    rw [hi]
    rfl) (by decide)
  have hjob : (linearBinding (getTopology [[0, 0], [0, 0], [0, 0]]) (fun k => k == 4) 3).1.job =
      some "SccSCcSCC".toList := by decide
  have hpairs : (linearBinding (getTopology [[0, 0], [0, 0], [0, 0]]) (fun k => k == 4) 3).2 =
      [(0, 0), (0, 1), (1, 1)] := by decide
  obtain ⟨-, -, J, heq, hmarks, -, hlead⟩ := hfills.takes _ hjob
  have hcores : Cores (getTopology [[0, 0], [0, 0], [0, 0]]) J := by
    intro i hi
    obtain ⟨pair, -, socket, core, -, hcore⟩ := (hmarks i).mp hi
    exact hcore.char
  have hJ : ∀ i, J i = CoreSystem.marked "SccSCcSCC".toList i := by
    intro i
    rw [heq, CoreSystem.marked_topologyWith letters_getTopology hcores]
  have hlast := hlead 5 7 ((hJ 5).trans (by decide)) (by unfold SocketUnused; decide) rfl
    (by unfold SocketUnused; decide)
  rw [hJ 7] at hlast
  exact absurd hlast (by decide)

end GridEngine
