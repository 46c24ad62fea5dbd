import GridEngine.FifoLockPhases
import GridEngine.Machine

/-!
# Runs of the fair read/write lock
-/

namespace GridEngine
open RingQueue

namespace FifoSystem
variable {T : Type*} {s s' : FifoSystem T} {t : T} {isReader : Bool} {index : ℕ}

structure Inv (s : FifoSystem T) : Prop where
  lock_inv : FifoInv s.lock s.place s.holders s.queue
  arrivals_eq : s.arrivals = s.grants ++ s.queue

theorem Inv.init : (init : FifoSystem T).Inv := ⟨FifoInv.init, rfl⟩

theorem Inv.of_append (queue : List (T × Bool)) (h : s.arrivals = s.grants ++ queue)
    (hlock : FifoInv s.lock s.place s.holders queue) : s.Inv := by
  have hqueue : s.queue = queue := by
    simp only [FifoSystem.queue, h, List.drop_left]
  rw [← hqueue] at hlock h
  exact ⟨hlock, h⟩

/-- What one step keeps for the threads in the queue: a thread gets the lock only as the head,
and no entry of a thread that stays is overwritten. -/
structure FairStep (s s' : FifoSystem T) : Prop where
  got : ∀ t isReader index, s.place t = .inQueue isReader index → s'.place t ≠ s.place t →
    index = s.lock.head ∧ s.queue.head? = some (t, isReader) ∧ s'.place t = .running ∧
      s'.holders = (t, isReader) :: s.holders
  kept : ∀ t isReader index, s.place t = .inQueue isReader index → s'.place t = s.place t →
    (s'.lock.array index).isReader = isReader ∧
      ((s.lock.array index).isSignaled = true → (s'.lock.array index).isSignaled = true)

theorem Inv.fairStep (h : s'.Inv)
    (hgot : ∀ t isReader index, s.place t = .inQueue isReader index → s'.place t ≠ s.place t →
      index = s.lock.head ∧ s.queue.head? = some (t, isReader) ∧ s'.place t = .running ∧
        s'.holders = (t, isReader) :: s.holders)
    (hkept : ∀ t isReader index, s.place t = .inQueue isReader index → s'.place t = s.place t →
      (s.lock.array index).isSignaled = true → (s'.lock.array index).isSignaled = true) :
    s.FairStep s' where
  got := hgot
  kept t isReader index ht hstay := by
    refine ⟨?_, hkept t isReader index ht hstay⟩
    rw [ht] at hstay
    obtain ⟨k, hk, hslot⟩ := h.lock_inv.exists_slot hstay
    rw [← hslot]
    exact (h.lock_inv.stores.stored k _ hk).1

variable [DecidableEq T]

/-- A thread outside the queue runs to the next wait or to the end of `sge_fifo_lock`. -/
theorem Inv.enter (h : s.Inv) (ht : ∀ isReader index, s.place t ≠ .inQueue isReader index)
    (waiting : ℤ) :
    (s.enter t isReader (sgeFifoLock { s.lock with waiting := waiting } isReader)).Inv := by
  have hlock := h.lock_inv.set_waiting waiting
  rw [sgeFifoLock]
  split_ifs with hfull hwait
  · apply Inv.of_append s.queue
    · exact h.arrivals_eq
    · exact (hlock.move ht fun _ _ h' => by cases h').set_waiting _
  · apply Inv.of_append (s.queue ++ [(t, isReader)])
    · simp only [FifoSystem.enter, h.arrivals_eq, List.append_assoc]
    · exact hlock.append ht (hlock.length_lt hfull) hwait
  · apply Inv.of_append s.queue
    · exact h.arrivals_eq
    · exact hlock.take ht (by simpa using hwait)

theorem Inv.fairStep_enter (h : s.Inv)
    (ht : ∀ isReader index, s.place t ≠ .inQueue isReader index) (waiting : ℤ) :
    s.FairStep
      (s.enter t isReader (sgeFifoLock { s.lock with waiting := waiting } isReader)) := by
  apply (h.enter ht waiting).fairStep
  · intro t' isReader' index ht' hne
    have heq : t' ≠ t := by
      rintro rfl
      exact ht _ _ ht'
    simp [FifoSystem.enter, heq] at hne
  · intro t' isReader' index ht' _ hsignaled
    rw [sgeFifoLock]
    split_ifs with hfull hwait
    · exact hsignaled
    · obtain ⟨k, hk, hslot⟩ := h.lock_inv.exists_slot ht'
      have hfree : s.queue.length < s.lock.size := by
        rw [h.lock_inv.size_eq]
        exact h.lock_inv.length_lt hfull
      have hne : index ≠ s.lock.tail := by
        rw [← hslot]
        exact h.lock_inv.stores.slot_ne_tail hfree (List.getElem?_eq_some_iff.mp hk).1
      simpa [FifoSystem.enter, SgeFifoRwLock.append, Function.update_of_ne hne] using hsignaled
    · simpa [FifoSystem.enter] using hsignaled

/-- A thread in the queue runs to the next wait or to the end of `sge_fifo_lock`. -/
theorem Inv.proceed (h : s.Inv) (ht : s.place t = .inQueue isReader index) :
    (s.proceed t isReader (sgeFifoLockInQueue s.lock isReader index)).Inv ∧
      s.FairStep (s.proceed t isReader (sgeFifoLockInQueue s.lock isReader index)) := by
  rw [sgeFifoLockInQueue]
  by_cases hsignaled : (s.lock.array index).isSignaled = false
  · simp only [SgeFifoRwLock.addWaiting_array, if_pos hsignaled, SgeFifoRwLock.addWaiting_cancel,
      FifoSystem.proceed, reduceCtorEq, if_false]
    have hinv : Inv { s with lock := s.lock } := h
    exact ⟨hinv, hinv.fairStep (fun _ _ _ _ hne => absurd rfl hne) fun _ _ _ _ _ => id⟩
  · rw [Bool.not_eq_false] at hsignaled
    obtain ⟨hphase, hindex, hhead⟩ := h.lock_inv.eq_head ht hsignaled
    obtain ⟨rest, hrest⟩ := List.head?_eq_some_iff.mp hhead
    have hlock := h.lock_inv
    rw [hrest] at hlock hphase
    simp only [SgeFifoRwLock.addWaiting_array, hsignaled, Bool.true_eq_false, if_false,
      FifoSystem.proceed, if_true]
    have hinv : Inv { s with
        lock := ((s.lock.addWaiting isReader (-1)).leaveQueue.addActive isReader 1)
        place := Function.update s.place t .running
        holders := (t, isReader) :: s.holders
        grants := s.grants ++ [(t, isReader)] } := by
      apply Inv.of_append rest
      · simp only [h.arrivals_eq, hrest, List.append_assoc, List.singleton_append]
      · exact hlock.leave hphase
    refine ⟨hinv, hinv.fairStep ?_ ?_⟩
    · intro t' isReader' index' ht' hne
      by_cases heq : t' = t
      · subst heq
        rw [ht] at ht'
        cases ht'
        exact ⟨hindex, hhead, Function.update_self _ _ _, rfl⟩
      · simp [heq] at hne
    · intro t' isReader' index' ht' hstay hsignaled'
      -- the only signaled entry is that of the thread that leaves
      have hindex' := (h.lock_inv.eq_head ht' hsignaled').2
      rw [hhead] at hindex'
      cases hindex'.2
      simp [ht] at hstay

theorem Inv.ulock (h : s.Inv) (hmem : (t, isReader) ∈ s.holders) :
    Inv { s with
        lock := sgeFifoUlock s.lock isReader
        holders := s.holders.erase (t, isReader) } ∧
      s.FairStep { s with
        lock := sgeFifoUlock s.lock isReader
        holders := s.holders.erase (t, isReader) } := by
  have hinv : Inv { s with
      lock := sgeFifoUlock s.lock isReader
      holders := s.holders.erase (t, isReader) } :=
    Inv.of_append s.queue h.arrivals_eq (h.lock_inv.ulock hmem)
  refine ⟨hinv, hinv.fairStep (fun _ _ _ _ hne => absurd rfl hne) ?_⟩
  intro t' isReader' index' _ _ hsignaled
  dsimp only
  rw [sgeFifoUlock]
  split_ifs
  · simp only [SgeFifoRwLock.signalHead, SgeFifoRwLock.addActive_array,
      SgeFifoRwLock.addActive_head, Function.update_apply]
    split_ifs
    · rfl
    · exact hsignaled
  · simpa using hsignaled

theorem Inv.step {action : FifoAction T} (h : s.Inv) (hstep : s.step action = some s') :
    s'.Inv ∧ s.FairStep s' := by
  cases action with
  | lock t isReader =>
      simp only [FifoSystem.step] at hstep
      split_ifs at hstep with ht
      cases hstep
      have hout : ∀ isReader index, s.place t ≠ .inQueue isReader index := by
        simp [ht]
      exact ⟨h.enter hout s.lock.waiting, h.fairStep_enter hout s.lock.waiting⟩
  | wake t =>
      simp only [FifoSystem.step] at hstep
      cases ht : s.place t with
      | running => simp [ht] at hstep
      | outside isReader =>
          simp only [ht, Option.some.injEq] at hstep
          subst hstep
          have hout : ∀ isReader index, s.place t ≠ .inQueue isReader index := by
            simp [ht]
          exact ⟨h.enter hout _, h.fairStep_enter hout _⟩
      | inQueue isReader index =>
          simp only [ht, Option.some.injEq] at hstep
          subst hstep
          exact h.proceed ht
  | ulock t isReader =>
      simp only [FifoSystem.step] at hstep
      split_ifs at hstep with hholds
      cases hstep
      exact h.ulock hholds.2

theorem Inv.run {actions : List (FifoAction T)}
    (h : actions.foldlM FifoSystem.step FifoSystem.init = some s) : s.Inv :=
  (Machine.Run.of_foldlM actions h).invariant (P := fun _ s => s.Inv) Inv.init
    fun _ _ _ _ hinv hstep => (hinv.step hstep).1

/-- What the lock promises in every state. -/
structure Fair (s : FifoSystem T) : Prop where
  writerActive_le : s.lock.writerActive ≤ 1
  exclusive : s.lock.writerActive = 1 → s.lock.readerActive = 0
  readerActive_eq : s.lock.readerActive = s.holders.countP (·.2)
  writerActive_eq : s.lock.writerActive = s.holders.countP (!·.2)
  queue_le : s.queue.length ≤ 64
  nodup : (s.queue.map Prod.fst).Nodup
  in_order : s.arrivals = s.grants ++ s.queue
  entries : Stores (s.lock.InSlot s.place) 64 s.lock.head s.lock.tail s.queue
  queued : ∀ t isReader index, s.place t = .inQueue isReader index → (t, isReader) ∈ s.queue
  signaled : ∀ i, (s.lock.array i).isSignaled = true → i = s.lock.head ∧ s.queue ≠ []
  none_forgotten : s.holders = [] → (∀ i, (s.lock.array i).isSignaled = false) → s.queue = []

omit [DecidableEq T] in
theorem Inv.nodup (h : s.Inv) : (s.queue.map Prod.fst).Nodup := by
  rw [List.nodup_iff_injective_get]
  rintro ⟨k, hk⟩ ⟨l, hl⟩ heq
  rw [List.length_map] at hk hl
  have hle := h.lock_inv.stores.length_le
  have hplace := (h.lock_inv.stores.stored k _ (List.getElem?_eq_getElem hk)).2
  have hplace' := (h.lock_inv.stores.stored l _ (List.getElem?_eq_getElem hl)).2
  simp only [List.get_eq_getElem, List.getElem_map] at heq
  rw [heq, hplace'] at hplace
  injection hplace with _ hslot
  have hkl : k = l := slot_inj (by omega) (by omega) hslot.symm
  exact Fin.ext hkl

omit [DecidableEq T] in
theorem Inv.fair (h : s.Inv) : s.Fair where
  writerActive_le := h.lock_inv.writerActive_le
  exclusive := h.lock_inv.readerActive_of_writer
  readerActive_eq := h.lock_inv.readerActive_eq
  writerActive_eq := h.lock_inv.writerActive_eq
  queue_le := by
    have hle := h.lock_inv.stores.length_le
    rwa [h.lock_inv.size_eq] at hle
  nodup := h.nodup
  in_order := h.arrivals_eq
  entries := by
    have hstores := h.lock_inv.stores
    rwa [h.lock_inv.size_eq] at hstores
  queued := h.lock_inv.mem_queue
  signaled i hi := by
    rcases h.lock_inv.phase with hphase | hphase
    · rw [hphase.isSignaled i] at hi
      cases hi
    · obtain ⟨x, hx, -⟩ := hphase.let_in
      refine ⟨(hphase.isSignaled i).mp hi, ?_⟩
      rintro hnil
      rw [hnil] at hx
      cases hx
  none_forgotten hholders hnone := by
    have hreaders := h.lock_inv.readerActive_eq
    have hwriters := h.lock_inv.writerActive_eq
    rw [hholders, List.countP_nil] at hreaders hwriters
    rcases h.lock_inv.phase with hphase | hphase
    · cases hqueue : s.queue with
      | nil => rfl
      | cons x rest =>
          rcases hphase.kept_out x (by rw [hqueue]; rfl) with hout | ⟨-, hout⟩ <;> omega
    · have hhead := (hphase.isSignaled s.lock.head).mpr rfl
      rw [hnone] at hhead
      cases hhead

/-- In every reachable state the lock is fair, and so is every further step. -/
theorem fifoLock_fair {actions : List (FifoAction T)}
    (h : actions.foldlM FifoSystem.step FifoSystem.init = some s) :
    s.Fair ∧ ∀ action s', s.step action = some s' → s.FairStep s' :=
  ⟨(Inv.run h).fair, fun _ _ hstep => ((Inv.run h).step hstep).2⟩

/-- A writer, and behind it two readers that get the lock together. -/
theorem fifoLock_fair_chain : ∃ s : FifoSystem ℕ,
    [FifoAction.lock 0 false, .lock 1 true, .lock 2 true, .ulock 0 false, .wake 1,
      .wake 2].foldlM FifoSystem.step FifoSystem.init = some s ∧
    s.holders = [(2, true), (1, true)] ∧ s.queue = [] ∧ s.Fair ∧
      ∀ action s', s.step action = some s' → s.FairStep s' :=
  ⟨_, rfl, by decide, by decide, @fifoLock_fair ℕ _ _ [.lock 0 false, .lock 1 true, .lock 2 true,
    .ulock 0 false, .wake 1, .wake 2] rfl⟩

end FifoSystem

end GridEngine
