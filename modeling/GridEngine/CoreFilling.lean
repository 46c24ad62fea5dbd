import GridEngine.CoreExplicit

/-!
# Filling sockets

The linear allocation goes from socket to socket and takes the free cores of each, as far as it
needs them: first the sockets that `get_free_sockets` names, then the others by their free cores.
-/

namespace GridEngine
variable {host : List Char} {A B : ℕ → Bool} {i j k n pos socket : ℕ}

/-- A core of the socket that is free. -/
abbrev FreeOn (host : List Char) (B : ℕ → Bool) (socket k : ℕ) : Prop :=
  (charAt host k = 'C' ∧ (!B k) = true) ∧ socketsBefore host k = socket + 1

/-- The free cores of a socket from a position on. -/
def freeBehind (host : List Char) (B : ℕ → Bool) (socket i : ℕ) : List ℕ :=
  (List.range' i (host.length - i)).filter fun k => FreeOn host B socket k

/-- The free cores of a socket. -/
def freeList (host : List Char) (B : ℕ → Bool) (socket : ℕ) : List ℕ := freeBehind host B socket 0

/-- Marks the cores of the list. -/
def markAll (B : ℕ → Bool) (cores : List ℕ) (i : ℕ) : Bool := decide (i ∈ cores) || B i

/-- The pair of numbers of a core on a socket. -/
def numbersOn (host : List Char) (socket pos : ℕ) : ℤ × ℤ :=
  (socket, coresBefore host (fun _ => true) pos)

theorem mem_freeBehind : k ∈ freeBehind host B socket i ↔ i ≤ k ∧ FreeOn host B socket k := by
  rw [freeBehind, List.mem_filter, List.mem_range'_1, decide_eq_true_eq]
  constructor
  · rintro ⟨⟨hle, -⟩, hk⟩
    exact ⟨hle, hk⟩
  · rintro ⟨hle, hk⟩
    have hlen : k < host.length := lt_length_of_charAt (by rw [hk.1.1]; decide)
    exact ⟨⟨hle, by omega⟩, hk⟩

theorem mem_freeList : k ∈ freeList host B socket ↔ FreeOn host B socket k := by
  rw [freeList, mem_freeBehind]
  exact and_iff_right (Nat.zero_le k)

theorem freeBehind_cons (h : FreeOn host B socket i) :
    freeBehind host B socket i = i :: freeBehind host B socket (i + 1) := by
  have hlen : i < host.length := lt_length_of_charAt (by rw [h.1.1]; decide)
  rw [freeBehind, show host.length - i = (host.length - (i + 1)) + 1 by omega, List.range'_succ,
    List.filter_cons_of_pos (by exact decide_eq_true h), freeBehind]

theorem freeBehind_succ (h : ¬ FreeOn host B socket i) :
    freeBehind host B socket i = freeBehind host B socket (i + 1) := by
  by_cases hlen : i < host.length
  · rw [freeBehind, show host.length - i = (host.length - (i + 1)) + 1 by omega, List.range'_succ,
      List.filter_cons_of_neg (by simpa using h), freeBehind]
  · rw [freeBehind, freeBehind, show host.length - i = 0 by omega,
      show host.length - (i + 1) = 0 by omega]
    rfl

theorem freeBehind_skip (hle : i ≤ j) (h : ∀ k, i ≤ k → k < j → ¬ FreeOn host B socket k) :
    freeBehind host B socket i = freeBehind host B socket j := by
  induction j, hle using Nat.le_induction with
  | base => rfl
  | succ j hle ih =>
      rw [ih fun k hk hk' => h k hk (by omega), freeBehind_succ (h j hle (by omega))]

theorem freeBehind_eq_nil (h : ∀ k, i ≤ k → ¬ FreeOn host B socket k) :
    freeBehind host B socket i = [] := by
  rw [List.eq_nil_iff_forall_not_mem]
  intro k hk
  rw [mem_freeBehind] at hk
  exact h k hk.1 hk.2

theorem freeBehind_congr (h : ∀ k, i ≤ k → socketsBefore host k = socket + 1 → A k = B k) :
    freeBehind host A socket i = freeBehind host B socket i := by
  refine List.filter_congr fun k hk => ?_
  rw [decide_eq_decide]
  refine and_congr_left fun hsocket => ?_
  rw [h k (List.mem_range'_1.mp hk).1 hsocket]

theorem length_freeList : (freeList host B socket).length = freeCores host B socket := by
  rw [freeList, freeBehind, freeCores, Nat.count, List.countP_eq_length_filter, Nat.sub_zero,
    List.range_eq_range']

theorem markAll_cons {cores : List ℕ} :
    markAll B (pos :: cores) = markAll (fun i => decide (i = pos) || B i) cores := by
  funext i
  rw [Bool.eq_iff_iff]
  simp only [markAll, List.mem_cons, Bool.or_eq_true, decide_eq_true_eq]
  tauto

theorem markAll_append {cores cores' : List ℕ} :
    markAll B (cores ++ cores') = markAll (markAll B cores) cores' := by
  funext i
  rw [Bool.eq_iff_iff]
  simp only [markAll, List.mem_append, Bool.or_eq_true, decide_eq_true_eq]
  tauto

theorem markAll_nil : markAll B [] = B := by
  funext i
  simp [markAll]

/-- The cores that are taken and what it does to the lists. -/
def taken (host : List Char) (B : ℕ → Bool) (socket : ℕ) (cores : List ℕ) (retval : ℤ)
    (pairs : List (ℤ × ℤ)) : SocketCores :=
  ⟨topologyWith host (markAll B cores), retval + cores.length,
    pairs ++ cores.map (numbersOn host socket)⟩

theorem taken_nil {retval : ℤ} {pairs : List (ℤ × ℤ)} :
    taken host B socket [] retval pairs = ⟨topologyWith host B, retval, pairs⟩ := by
  rw [taken, markAll_nil]
  simp

theorem taken_cons {retval : ℤ} {pairs : List (ℤ × ℤ)} {cores : List ℕ} :
    taken host B socket (pos :: cores) retval pairs =
      taken host (fun i => decide (i = pos) || B i) socket cores (retval + 1)
        (pairs ++ [numbersOn host socket pos]) := by
  rw [taken, taken, markAll_cons, List.length_cons, List.map_cons, List.append_assoc]
  congr 1
  push_cast
  ring

/-- The second loop of `account_cores_on_socket` takes the next free cores of the socket. -/
theorem coresFrom_spec (retval : ℤ) (pairs : List (ℤ × ℤ)) (h : Letters host) {fuel : ℕ}
    {coreCounter : ℤ} (hfuel : host.length ≤ fuel + i)
    (hsocket : socketsBefore host i = socket + 1)
    (hcounter : coreCounter = coresBefore host (fun _ => true) i) :
    coresFrom socket (retval + (n + 1 : ℕ)) fuel i coreCounter
        ⟨topologyWith host B, retval, pairs⟩ =
      taken host B socket ((freeBehind host B socket i).take (n + 1)) retval pairs := by
  induction fuel generalizing B i n coreCounter retval pairs with
  | zero =>
      rw [coresFrom, freeBehind_eq_nil fun k hk hfree => ?_]
      · exact taken_nil.symm
      · have hlen : k < host.length := lt_length_of_charAt (by rw [hfree.1.1]; decide)
        omega
  | succ fuel ih =>
      have hopen : ¬ retval + ((n + 1 : ℕ) : ℤ) ≤ retval := by push_cast; omega
      have hsock := isSocket_topologyWith (A := B) (i := i) h
      rw [coresFrom]
      dsimp only
      generalize hx : charAt (topologyWith host B) i = x at hsock
      by_cases hend : x = '\x00'
      · rw [if_pos hend, freeBehind_eq_nil fun k hk hfree => ?_]
        · exact taken_nil.symm
        · have hlen : k < host.length := lt_length_of_charAt (by rw [hfree.1.1]; decide)
          have hi : i < host.length := by omega
          have hne := h _ (List.getElem_mem hi)
          rw [← charAt_eq hi] at hne
          rw [hend, charAt_topologyWith] at hx
          rcases hne with hne | hne | hne <;> rw [hne] at hx <;> split_ifs at hx <;>
            exact absurd hx (by decide)
      · rw [if_neg hend]
        by_cases hfree : x = 'C'
        · obtain ⟨hcore, hB⟩ := charAt_eq_core h (hx.trans hfree)
          have hsame := coresBefore_succ (fun _ => true) (isSocket_core hcore)
          rw [if_pos ⟨hcore, rfl⟩] at hsame
          have hbehind : freeBehind host B socket (i + 1) =
              freeBehind host (fun k => decide (k = i) || B k) socket (i + 1) := by
            refine freeBehind_congr fun k hk _ => ?_
            rw [decide_eq_false (by omega), Bool.false_or]
          rw [if_pos hfree, accountCore_topologyWith h hcore, hcounter,
            freeBehind_cons ⟨⟨hcore, by simp [hB]⟩, hsocket⟩, List.take_succ_cons, taken_cons,
            hbehind]
          cases n with
          | zero =>
              rw [if_pos (by push_cast; omega), List.take_zero, taken_nil]
              rfl
          | succ n =>
              have hsocket' : socketsBefore host (i + 1) = socket + 1 := by
                rw [socketsBefore_succ, isSocket_core hcore]
                exact hsocket
              have hcounter' : (coresBefore host (fun _ => true) i : ℤ) + 1 =
                  coresBefore host (fun _ => true) (i + 1) := by
                rw [hsame]
                push_cast
                rfl
              have hnext := ih (B := fun k => decide (k = i) || B k) (n := n) (retval + 1)
                (pairs ++ [numbersOn host socket i]) (by omega) hsocket' hcounter'
              rw [← hnext, if_neg (by push_cast; omega)]
              congr 1
              push_cast
              ring
        · rw [if_neg hfree]
          by_cases hS : isSocket x = true
          · rw [if_pos hS, freeBehind_eq_nil fun k hk hfreek => ?_]
            · exact taken_nil.symm
            · have hk' : k ≠ i := by
                rintro rfl
                have hnot := isSocket_core hfreek.1.1
                rw [← hsock, hS] at hnot
                cases hnot
              have hmono : socketsBefore host (i + 1) ≤ socketsBefore host k :=
                socketsBefore_mono (by omega)
              have hone := hfreek.2
              rw [socketsBefore_succ, ← hsock, if_pos hS] at hmono
              omega
          · have hnotfree : ¬ FreeOn host B socket i := fun hi =>
              hfree (hx.symm.trans ((charAt_eq_core_iff h).mpr ⟨hi.1.1, by simpa using hi.1.2⟩))
            have hS' : isSocket (charAt host i) = false := by
              rw [← hsock]
              simpa using hS
            have hsame := coresBefore_succ (fun _ => true) hS'
            rw [if_neg hS, if_neg hopen, freeBehind_succ hnotfree]
            refine ih retval pairs (by omega) (by rw [socketsBefore_succ, hS']; exact hsocket) ?_
            rw [hsame, hcounter]
            have hused := charAt_eq_used_iff (A := B) (i := i) h
            have hcores := charAt_eq_core_iff (A := B) (i := i) h
            rw [hx] at hused hcores
            by_cases hc : x = 'c'
            · rw [if_pos hc, if_pos ⟨(hused.mp hc).1, rfl⟩]
              push_cast
              rfl
            · have hnot : ¬ (charAt host i = 'C' ∧ true = true) := by
                rintro ⟨hcore, -⟩
                cases hB : B i with
                | false => exact hfree (hcores.mpr ⟨hcore, hB⟩)
                | true => exact hc (hused.mpr ⟨hcore, hB⟩)
              rw [if_neg hc, if_neg hnot, add_zero]

/-- The first loop of `account_cores_on_socket` stops at the socket, or behind the last one. -/
theorem socketFrom_spec (socket : ℕ) (h : Letters host) {rest : List Char}
    (hrest : (topologyWith host B).drop i = rest) (hbefore : socketsBefore host i ≤ socket) :
    (∃ p, isSocket (charAt host p) = true ∧ socketsBefore host p = socket ∧
        socketFrom socket rest ((socketsBefore host i : ℤ) - 1) i = ((socket : ℤ), p)) ∨
      socketsBefore host host.length ≤ socket ∧
        (socketFrom socket rest ((socketsBefore host i : ℤ) - 1) i).1 ≠ socket := by
  induction rest generalizing i with
  | nil =>
      have hlen := List.drop_eq_nil_iff.mp hrest
      rw [length_topologyWith] at hlen
      refine .inr ⟨(socketsBefore_mono hlen).trans hbefore, ?_⟩
      rw [socketFrom]
      dsimp only
      omega
  | cons x rest ih =>
      obtain ⟨hx, hrest'⟩ := charAt_drop_cons hrest
      have hsock := isSocket_topologyWith (A := B) (i := i) h
      rw [hx] at hsock
      have hcount := socketsBefore_succ host i
      simp only [socketFrom]
      by_cases hS : isSocket x = true
      · rw [← hsock, if_pos hS] at hcount
        rw [if_pos hS]
        by_cases hfound : (socket : ℤ) ≤ (socketsBefore host i : ℤ) - 1 + 1
        · rw [if_pos hfound]
          refine .inl ⟨i, hsock ▸ hS, by omega, ?_⟩
          rw [Prod.mk.injEq]
          exact ⟨by omega, rfl⟩
        · rw [if_neg hfound]
          have hnext := ih hrest' (by omega)
          rwa [hcount, Nat.cast_add, Nat.cast_one, add_sub_cancel_right,
            ← sub_add_cancel (socketsBefore host i : ℤ) 1] at hnext
      · rw [← hsock, if_neg hS, add_zero] at hcount
        rw [if_neg hS]
        have hnext := ih hrest' (by omega)
        rwa [hcount] at hnext

theorem accountCoresOnSocket_spec (h : Letters host) {pairs : List (ℤ × ℤ)} (hn : 0 < n) :
    accountCoresOnSocket (topologyWith host B) socket n pairs =
      taken host B socket ((freeList host B socket).take n) 0 pairs := by
  obtain ⟨n, rfl⟩ : ∃ m, n = m + 1 := ⟨n - 1, by omega⟩
  have hzero : socketsBefore host 0 = 0 := Nat.count_zero _
  simp only [accountCoresOnSocket]
  rcases socketFrom_spec (B := B) (i := 0) socket h rfl (by omega) with
    ⟨p, hS, hp, hfound⟩ | ⟨hnone, hfound⟩
  · rw [List.drop_zero, hzero, Nat.cast_zero, zero_sub] at hfound
    have hp' : socketsBefore host (p + 1) = socket + 1 := by
      rw [socketsBefore_succ, if_pos hS, hp]
    have hzero' : (0 : ℤ) = coresBefore host (fun _ => true) (p + 1) := by
      rw [coresBefore_socket hS]
      rfl
    have hcores := coresFrom_spec (B := B) (n := n) 0 pairs h (Nat.le_add_right _ (p + 1)) hp'
      hzero'
    rw [hfound, if_neg (by simp), length_topologyWith, freeList,
      freeBehind_skip (Nat.zero_le (p + 1)) fun k _ hk hfree => ?_, ← hcores, zero_add]
    have hmono : socketsBefore host k ≤ socketsBefore host p := socketsBefore_mono (by omega)
    have hone := hfree.2
    omega
  · rw [List.drop_zero, hzero, Nat.cast_zero, zero_sub] at hfound
    rw [if_pos hfound.symm, freeList, freeBehind_eq_nil fun k _ hfree => ?_, List.take_nil,
      taken_nil]
    have hlen : k < host.length := lt_length_of_charAt (by rw [hfree.1.1]; decide)
    have hmono : socketsBefore host k ≤ socketsBefore host host.length :=
      socketsBefore_mono hlen.le
    have hone := hfree.2
    omega

/-- The cores of a socket are left alone when those of other sockets are marked. -/
theorem freeList_markAll {cores : List ℕ}
    (h : ∀ k ∈ cores, socketsBefore host k ≠ socket + 1) :
    freeList host (markAll B cores) socket = freeList host B socket := by
  refine freeBehind_congr fun k _ hsocket => ?_
  rw [markAll, decide_eq_false fun hk => h k hk hsocket, Bool.false_or]

theorem socketsBefore_of_mem (h : k ∈ (freeList host B socket).take n) :
    socketsBefore host k = socket + 1 := (mem_freeList.mp (List.mem_of_mem_take h)).2

/-- The free cores of sockets, socket by socket. -/
def freeOf (host : List Char) (B : ℕ → Bool) (sockets : List ℕ) : List ℕ :=
  sockets.flatMap (freeList host B)

/-- The pair of numbers of a core. -/
def numbersOf (host : List Char) (pos : ℕ) : ℤ × ℤ :=
  numbersOn host (socketsBefore host pos - 1) pos

theorem freeOf_markAll {sockets : List ℕ} (h : socket ∉ sockets) :
    freeOf host (markAll B ((freeList host B socket).take n)) sockets = freeOf host B sockets := by
  refine List.flatMap_congr fun s hs => freeList_markAll fun k hk => ?_
  rw [socketsBefore_of_mem hk]
  intro heq
  have hsame : socket = s := by omega
  exact h (hsame ▸ hs)

theorem taken_eq {cores : List ℕ} {retval : ℤ} {pairs : List (ℤ × ℤ)}
    (h : ∀ k ∈ cores, socketsBefore host k = socket + 1) :
    taken host B socket cores retval pairs = ⟨topologyWith host (markAll B cores),
      retval + cores.length, pairs ++ cores.map (numbersOf host)⟩ := by
  rw [taken]
  congr 2
  refine List.map_congr_left fun k hk => ?_
  rw [numbersOf, h k hk, Nat.add_sub_cancel]

/-- Socket after socket, the free cores are taken until there are enough. -/
theorem fillFreeSockets_spec (retval : ℤ) (pairs : List (ℤ × ℤ)) (h : Letters host)
    {sockets : List ℕ} (hnodup : sockets.Nodup) :
    fillFreeSockets (retval + n) sockets ⟨topologyWith host B, retval, pairs⟩ =
      ⟨topologyWith host (markAll B ((freeOf host B sockets).take n)),
        retval + ((freeOf host B sockets).take n).length,
        pairs ++ ((freeOf host B sockets).take n).map (numbersOf host)⟩ := by
  induction sockets generalizing B n retval pairs with
  | nil => simp [fillFreeSockets, freeOf, markAll_nil]
  | cons socket sockets ih =>
      rw [List.nodup_cons] at hnodup
      simp only [fillFreeSockets]
      by_cases hn : n = 0
      · subst hn
        simp [markAll_nil]
      · have hneeded : retval + (n : ℤ) - retval = n := by ring
        rw [if_pos (by omega), hneeded, accountCoresOnSocket_spec h (Nat.pos_of_ne_zero hn),
          taken_eq fun k hk => socketsBefore_of_mem hk]
        dsimp only
        generalize hL : (freeList host B socket).take n = L
        have hlen : L.length ≤ n := by
          rw [← hL]
          exact List.length_take_le _ _
        have hnext := ih (B := markAll B L) (n := n - L.length) (retval + L.length)
          (pairs ++ L.map (numbersOf host)) hnodup.2
        rw [zero_add]
        have hsum : retval + (L.length : ℤ) + ((n - L.length : ℕ) : ℤ) = retval + n := by
          push_cast [hlen]
          ring
        have hfree : freeOf host (markAll B L) sockets = freeOf host B sockets := by
          rw [← hL]
          exact freeOf_markAll hnodup.1
        have htake : (freeOf host B (socket :: sockets)).take n =
            L ++ (freeOf host B sockets).take (n - L.length) := by
          rw [freeOf, List.flatMap_cons, List.take_append, hL, freeOf]
          congr 2
          rw [← hL, List.length_take]
          omega
        rw [hsum, hfree] at hnext
        rw [hnext, htake, markAll_append, List.map_append, List.append_assoc, List.length_append]
        congr 1
        push_cast
        ring

/-- Every core is behind a socket. -/
def BehindSockets (host : List Char) : Prop :=
  ∀ k, charAt host k = 'C' → 0 < socketsBefore host k

/-- The first of the sockets with the most free cores up to a position. -/
structure MostFree (host : List Char) (B : ℕ → Bool) (i highest : ℕ) (socketNumber : ℤ) :
    Prop where
  le : ∀ s, Nat.count (FreeOn host B s) i ≤ highest
  first : highest = 0 ∨ ∃ s : ℕ, socketNumber = s ∧ Nat.count (FreeOn host B s) i = highest ∧
    (∀ t < s, Nat.count (FreeOn host B t) i < highest) ∧ s < socketsBefore host i

theorem coresBefore_eq_count (h : socketsBefore host i = socket + 1) :
    coresBefore host (fun k => !B k) i = Nat.count (FreeOn host B socket) i := by
  simp only [coresBefore, h]

theorem MostFree.skip {highest : ℕ} {socketNumber : ℤ} (h : MostFree host B i highest socketNumber)
    (hfree : ∀ s, ¬ FreeOn host B s i) : MostFree host B (i + 1) highest socketNumber := by
  have hsame : ∀ s, Nat.count (FreeOn host B s) (i + 1) = Nat.count (FreeOn host B s) i := by
    intro s
    rw [Nat.count_succ, if_neg (hfree s), add_zero]
  refine ⟨fun s => (hsame s).le.trans (h.le s), h.first.imp_right ?_⟩
  rintro ⟨s, hs, hmost, hless, hlt⟩
  refine ⟨s, hs, (hsame s).trans hmost, fun t ht => (hsame t).trans_lt (hless t ht), ?_⟩
  exact hlt.trans_le (socketsBefore_mono (Nat.le_succ i))

theorem MostFree.core {highest : ℕ} {socketNumber : ℤ} (h : MostFree host B i highest socketNumber)
    (hfree : FreeOn host B socket i) :
    (highest < Nat.count (FreeOn host B socket) i + 1 →
      MostFree host B (i + 1) (Nat.count (FreeOn host B socket) i + 1) socket) ∧
    (¬ highest < Nat.count (FreeOn host B socket) i + 1 →
      MostFree host B (i + 1) highest socketNumber) := by
  have hother : ∀ s, s ≠ socket →
      Nat.count (FreeOn host B s) (i + 1) = Nat.count (FreeOn host B s) i := by
    intro s hs
    rw [Nat.count_succ, if_neg, add_zero]
    intro hon
    exact hs (by have := hfree.2; have := hon.2; omega)
  have hown : Nat.count (FreeOn host B socket) (i + 1) =
      Nat.count (FreeOn host B socket) i + 1 := by
    rw [Nat.count_succ, if_pos hfree]
  have hmono : socketsBefore host i ≤ socketsBefore host (i + 1) :=
    socketsBefore_mono (Nat.le_succ i)
  have hplace := hfree.2
  constructor
  · intro hmore
    refine ⟨fun s => ?_, .inr ⟨socket, rfl, hown, fun t ht => ?_, by omega⟩⟩
    · by_cases hs : s = socket
      · rw [hs, hown]
      · rw [hother s hs]
        exact (h.le s).trans (by omega)
    · rw [hother t ht.ne]
      exact (h.le t).trans_lt hmore
  · intro hless
    refine ⟨fun s => ?_, ?_⟩
    · by_cases hs : s = socket
      · rw [hs, hown]
        omega
      · rw [hother s hs]
        exact h.le s
    · obtain ⟨s, hs, hmost, hbefore, hlt⟩ := h.first.resolve_left (by omega)
      have hne : s ≠ socket := by
        rintro rfl
        omega
      refine .inr ⟨s, hs, (hother s hne).trans hmost, fun t ht => ?_, by omega⟩
      rw [hother t (by omega)]
      exact hbefore t ht

theorem mostFreeFrom_spec (h : Letters host) (hsockets : BehindSockets host) {rest : List Char}
    {highest : ℕ} {socketNumber : ℤ} (hrest : (topologyWith host B).drop i = rest)
    (hmost : MostFree host B i highest socketNumber) {found : ℕ × ℤ}
    (hfound : mostFreeFrom rest ((socketsBefore host i : ℤ) - 1)
      (coresBefore host (fun k => !B k) i) highest socketNumber = found) :
    MostFree host B (i + rest.length) found.1 found.2 := by
  induction rest generalizing i highest socketNumber with
  | nil =>
      cases hfound
      exact hmost
  | cons x rest ih =>
      obtain ⟨hx, hrest'⟩ := charAt_drop_cons hrest
      have hsock := isSocket_topologyWith (A := B) (i := i) h
      have hfree := charAt_eq_core_iff (A := B) (i := i) h
      rw [hx] at hsock hfree
      have hcount := socketsBefore_succ host i
      rw [List.length_cons, show i + (rest.length + 1) = i + 1 + rest.length by omega]
      rw [mostFreeFrom] at hfound
      by_cases hS : isSocket x = true
      · rw [← hsock, if_pos hS] at hcount
        rw [if_pos hS] at hfound
        have hskip := hmost.skip fun s hs => by
          have hnot := isSocket_core hs.1.1
          rw [← hsock, hS] at hnot
          cases hnot
        refine ih hrest' hskip ?_
        rw [hcount, coresBefore_socket (hsock ▸ hS), ← hfound]
        congr 1
        push_cast
        ring
      · have hS' : isSocket (charAt host i) = false := by
          rw [← hsock]
          simpa using hS
        have hcores := coresBefore_succ (fun k => !B k) hS'
        rw [hS'] at hcount
        have hcount' : socketsBefore host (i + 1) = socketsBefore host i := hcount
        rw [if_neg hS] at hfound
        by_cases hC : x = 'C'
        · obtain ⟨hcore, hB⟩ := hfree.mp hC
          obtain ⟨socket, hsocket⟩ : ∃ socket, socketsBefore host i = socket + 1 :=
            ⟨socketsBefore host i - 1, by have := hsockets i hcore; omega⟩
          have hon : FreeOn host B socket i := ⟨⟨hcore, by simp [hB]⟩, hsocket⟩
          rw [if_pos ⟨hcore, by simp [hB]⟩] at hcores
          rw [if_pos hC] at hfound
          have hnumber := coresBefore_eq_count (B := B) hsocket
          have hcurrent : (socketsBefore host i : ℤ) - 1 = socket := by
            rw [hsocket]
            push_cast
            ring
          obtain ⟨hmore, hless⟩ := hmost.core hon
          rw [← hnumber] at hmore hless
          by_cases hhigh : highest < coresBefore host (fun k => !B k) i + 1
          · rw [if_pos hhigh] at hfound
            refine ih hrest' (hmore hhigh) ?_
            rwa [hcores, hcount', ← hcurrent]
          · rw [if_neg hhigh] at hfound
            refine ih hrest' (hless hhigh) ?_
            rwa [hcores, hcount']
        · rw [if_neg hC] at hfound
          have hnot : ¬ (charAt host i = 'C' ∧ (!B i) = true) := fun hcore =>
            hC (hfree.mpr ⟨hcore.1, by simpa using hcore.2⟩)
          rw [if_neg hnot, add_zero] at hcores
          refine ih hrest' (hmost.skip fun s hs => hnot hs.1) ?_
          rwa [hcores, hcount']

/-- The socket with the most free cores, the first one if there are several. -/
theorem getSocketWithMostFreeCores_spec (h : Letters host) (hsockets : BehindSockets host) :
    (getSocketWithMostFreeCores (topologyWith host B) = none ∧ ∀ s, freeCores host B s = 0) ∨
      ∃ s : ℕ, getSocketWithMostFreeCores (topologyWith host B) = some (s : ℤ) ∧
        0 < freeCores host B s ∧ ∀ t, freeCores host B t ≤ freeCores host B s ∧
          (t < s → freeCores host B t < freeCores host B s) := by
  have hmost : MostFree host B (0 + (topologyWith host B).length)
      (mostFreeFrom (topologyWith host B) (-1) 0 0 0).1
      (mostFreeFrom (topologyWith host B) (-1) 0 0 0).2 := by
    have hstart : MostFree host B 0 0 0 := ⟨fun s => by simp, .inl rfl⟩
    refine mostFreeFrom_spec h hsockets List.drop_zero hstart ?_
    have hzero : socketsBefore host 0 = 0 := Nat.count_zero _
    have hcores : coresBefore host (fun k => !B k) 0 = 0 := Nat.count_zero _
    rw [hzero, hcores]
    rfl
  rw [zero_add, length_topologyWith] at hmost
  rw [getSocketWithMostFreeCores]
  generalize mostFreeFrom (topologyWith host B) (-1) 0 0 0 = found at hmost
  obtain ⟨highest, socketNumber⟩ := found
  dsimp only at hmost ⊢
  by_cases hnone : highest ≤ 0
  · rw [if_pos hnone]
    exact .inl ⟨rfl, fun s => Nat.le_zero.mp ((hmost.le s).trans hnone)⟩
  · rw [if_neg hnone]
    obtain ⟨s, rfl, hs, hless, -⟩ := hmost.first.resolve_left (by omega)
    refine .inr ⟨s, rfl, ?_, fun t => ⟨?_, fun ht => ?_⟩⟩
    · rw [freeCores, hs]
      omega
    · rw [freeCores, freeCores, hs]
      exact hmost.le t
    · rw [freeCores, freeCores, hs]
      exact hless t ht

/-- The order in which sockets are filled up: by the number of free cores, at equal numbers from the
first to the last. -/
def MoreFree (host : List Char) (B : ℕ → Bool) (s t : ℕ) : Prop :=
  freeCores host B t < freeCores host B s ∨ freeCores host B t = freeCores host B s ∧ s ≤ t

theorem fillSockets_zero {fuel : ℕ} {topology : List Char} {pairs : List (ℤ × ℤ)} :
    fillSockets fuel 0 topology pairs = (true, topology, pairs) := by
  cases fuel with
  | zero => rfl
  | succ fuel => rw [fillSockets, if_neg (lt_irrefl 0)]

theorem freeCores_markAll {cores : List ℕ} (h : ∀ k ∈ cores, socketsBefore host k ≠ socket + 1) :
    freeCores host (markAll B cores) socket = freeCores host B socket := by
  rw [← length_freeList, freeList_markAll h, length_freeList]

theorem freeCores_markAll_self :
    freeCores host (markAll B (freeList host B socket)) socket = 0 := by
  rw [← length_freeList, List.length_eq_zero_iff, List.eq_nil_iff_forall_not_mem]
  intro k hk
  have hfree := mem_freeList.mp hk
  have hnot := hfree.1.2
  rw [markAll, Bool.not_eq_true', Bool.or_eq_false_iff, decide_eq_false_iff_not] at hnot
  exact hnot.1 (mem_freeList.mpr ⟨⟨hfree.1.1, by simp [hnot.2]⟩, hfree.2⟩)

theorem freeOf_eq_nil {order : List ℕ} (h : ∀ s, freeCores host B s = 0) :
    freeOf host B order = [] := by
  rw [freeOf, List.flatMap_eq_nil_iff]
  intro s _
  rw [← List.length_eq_zero_iff, length_freeList, h]

/-- The socket with the most free cores is the first one in the order. -/
theorem eq_of_most {order : List ℕ} (horder : (socket :: order).Pairwise (MoreFree host B))
    (hall : ∀ s, s ∉ socket :: order → freeCores host B s = 0) {s : ℕ}
    (hpos : 0 < freeCores host B s)
    (hmost : ∀ t, freeCores host B t ≤ freeCores host B s ∧
      (t < s → freeCores host B t < freeCores host B s)) : s = socket := by
  have hmem : s ∈ socket :: order := by
    by_contra hnot
    rw [hall s hnot] at hpos
    exact absurd hpos (lt_irrefl 0)
  rcases List.mem_cons.mp hmem with hs | hs
  · exact hs
  · obtain ⟨hle, hless⟩ := hmost socket
    rcases List.rel_of_pairwise_cons horder hs with hmore | ⟨heq, hbefore⟩
    · omega
    · by_contra hne
      have hlt := hless (by omega)
      omega

theorem fillSockets_spec (pairs : List (ℤ × ℤ)) (h : Letters host)
    (hsockets : BehindSockets host) {order : List ℕ} (hnodup : order.Nodup)
    (horder : order.Pairwise (MoreFree host B))
    (hall : ∀ s, s ∉ order → freeCores host B s = 0) {fuel : ℕ} (hfuel : n ≤ fuel) :
    fillSockets fuel n (topologyWith host B) pairs =
      (decide (n ≤ (freeOf host B order).length),
        topologyWith host (markAll B ((freeOf host B order).take n)),
        pairs ++ ((freeOf host B order).take n).map (numbersOf host)) := by
  induction order generalizing B n fuel pairs with
  | nil =>
      have hnone : freeOf host B [] = [] := rfl
      rw [hnone, List.take_nil, markAll_nil, List.map_nil, List.append_nil, List.length_nil]
      cases n with
      | zero => simp [fillSockets_zero]
      | succ n =>
          obtain ⟨fuel, rfl⟩ : ∃ f, fuel = f + 1 := ⟨fuel - 1, by omega⟩
          rcases getSocketWithMostFreeCores_spec (B := B) h hsockets with
            ⟨hmost, -⟩ | ⟨s, -, hpos, -⟩
          · rw [fillSockets, if_pos (by push_cast; omega), hmost]
            simp
          · rw [hall s List.not_mem_nil] at hpos
            exact absurd hpos (lt_irrefl 0)
  | cons socket order ih =>
      by_cases hn : n = 0
      · subst hn
        simp [fillSockets_zero, markAll_nil]
      obtain ⟨fuel, rfl⟩ : ∃ f, fuel = f + 1 := ⟨fuel - 1, by omega⟩
      rw [fillSockets, if_pos (by omega)]
      rcases getSocketWithMostFreeCores_spec (B := B) h hsockets with
        ⟨hmost, hzero⟩ | ⟨s, hmost, hpos, hmore⟩
      · rw [hmost, freeOf_eq_nil hzero]
        simp [hn, markAll_nil]
      · cases eq_of_most horder hall hpos hmore
        rw [List.nodup_cons] at hnodup
        have hcons : freeOf host B (socket :: order) =
            freeList host B socket ++ freeOf host B order := List.flatMap_cons
        have hL : ∀ k ∈ (freeList host B socket).take n, socketsBefore host k = socket + 1 :=
          fun k hk => socketsBefore_of_mem hk
        rw [← length_freeList] at hpos
        rw [hmost, hcons]
        dsimp only
        rw [accountCoresOnSocket_spec h (Nat.pos_of_ne_zero hn), taken_eq hL]
        dsimp only
        rw [zero_add, if_neg (by rw [List.length_take]; omega)]
        by_cases henough : n ≤ (freeList host B socket).length
        · rw [List.take_append_of_le_length henough, List.length_take, min_eq_left henough,
            sub_self, fillSockets_zero, decide_eq_true (by rw [List.length_append]; omega)]
        · have htake : (freeList host B socket).take n = freeList host B socket :=
            List.take_of_length_le (by omega)
          have hsame : ∀ t, t ≠ socket → freeCores host (markAll B (freeList host B socket)) t =
              freeCores host B t := by
            intro t ht
            refine freeCores_markAll fun k hk => ?_
            rw [(mem_freeList.mp hk).2]
            omega
          have hfree : freeOf host (markAll B (freeList host B socket)) order =
              freeOf host B order := by
            rw [← htake]
            exact freeOf_markAll hnodup.1
          have hfuel' : n - (freeList host B socket).length ≤ fuel := by omega
          have hnext := ih (B := markAll B (freeList host B socket))
            (pairs ++ (freeList host B socket).map (numbersOf host)) hnodup.2 ?_ ?_ hfuel'
          · rw [htake]
            rw [hfree, Nat.cast_sub (by omega)] at hnext
            rw [hnext, List.take_append, htake, markAll_append, List.map_append, List.append_assoc,
              List.length_append]
            congr 1
            rw [decide_eq_decide]
            omega
          · refine (List.pairwise_cons.mp horder).2.imp_of_mem fun {t t'} ht ht' hmore => ?_
            have hne : t ≠ socket := by
              rintro rfl
              exact hnodup.1 ht
            have hne' : t' ≠ socket := by
              rintro rfl
              exact hnodup.1 ht'
            rwa [MoreFree, hsame t hne, hsame t' hne']
          · intro t ht
            by_cases hts : t = socket
            · rw [hts]
              exact freeCores_markAll_self
            · rw [hsame t hts]
              refine hall t fun hmem => ?_
              exact (List.mem_cons.mp hmem).elim hts ht

end GridEngine
