import GridEngine.FifoLock

/-!
# The phases of the fair read/write lock

The invariant of the lock has two phases: either one thread, the head of the queue, has been
signaled, and no holder stands in its way, or no thread has been signaled, and a holder keeps the
head of the queue out.
-/

namespace GridEngine
open RingQueue

namespace SgeFifoRwLock
variable {lock : SgeFifoRwLock} {isReader : Bool} {d : ℤ}

@[simp] theorem addWaiting_array : (lock.addWaiting isReader d).array = lock.array := by
  cases isReader <;> rfl

@[simp] theorem addWaiting_head : (lock.addWaiting isReader d).head = lock.head := by
  cases isReader <;> rfl

@[simp] theorem addWaiting_tail : (lock.addWaiting isReader d).tail = lock.tail := by
  cases isReader <;> rfl

@[simp] theorem addWaiting_size : (lock.addWaiting isReader d).size = lock.size := by
  cases isReader <;> rfl

@[simp] theorem addWaiting_readerActive :
    (lock.addWaiting isReader d).readerActive = lock.readerActive := by
  cases isReader <;> rfl

@[simp] theorem addWaiting_writerActive :
    (lock.addWaiting isReader d).writerActive = lock.writerActive := by
  cases isReader <;> rfl

@[simp] theorem addWaiting_signaled :
    (lock.addWaiting isReader d).signaled = lock.signaled := by
  cases isReader <;> rfl

@[simp] theorem addWaiting_readerWaiting :
    (lock.addWaiting isReader d).readerWaiting = lock.readerWaiting + if isReader then d else 0 := by
  cases isReader <;> simp [addWaiting]

@[simp] theorem addWaiting_writerWaiting :
    (lock.addWaiting isReader d).writerWaiting = lock.writerWaiting + if isReader then 0 else d := by
  cases isReader <;> simp [addWaiting]

theorem addWaiting_cancel : (lock.addWaiting isReader (-1)).addWaiting isReader 1 = lock := by
  cases isReader <;> simp [addWaiting]

@[simp] theorem addActive_array : (lock.addActive isReader d).array = lock.array := by
  cases isReader <;> rfl

@[simp] theorem addActive_head : (lock.addActive isReader d).head = lock.head := by
  cases isReader <;> rfl

@[simp] theorem addActive_tail : (lock.addActive isReader d).tail = lock.tail := by
  cases isReader <;> rfl

@[simp] theorem addActive_size : (lock.addActive isReader d).size = lock.size := by
  cases isReader <;> rfl

@[simp] theorem addActive_signaled : (lock.addActive isReader d).signaled = lock.signaled := by
  cases isReader <;> rfl

@[simp] theorem addActive_readerWaiting :
    (lock.addActive isReader d).readerWaiting = lock.readerWaiting := by
  cases isReader <;> rfl

@[simp] theorem addActive_writerWaiting :
    (lock.addActive isReader d).writerWaiting = lock.writerWaiting := by
  cases isReader <;> rfl

@[simp] theorem addActive_readerActive :
    (lock.addActive isReader d).readerActive = lock.readerActive + if isReader then d else 0 := by
  cases isReader <;> simp [addActive]

@[simp] theorem addActive_writerActive :
    (lock.addActive isReader d).writerActive = lock.writerActive + if isReader then 0 else d := by
  cases isReader <;> simp [addActive]

/-- The test for the next reader, when the thread at the head leaves. -/
def WakesNext (lock : SgeFifoRwLock) : Prop :=
  (lock.array lock.head).isReader = true ∧ 0 < lock.readerWaiting ∧
    (lock.array (next lock.size lock.head)).isReader = true

instance : Decidable lock.WakesNext := inferInstanceAs (Decidable (_ ∧ _))

@[simp] theorem leaveQueue_head : lock.leaveQueue.head = next lock.size lock.head := by
  rw [leaveQueue]
  split_ifs <;> rfl

@[simp] theorem leaveQueue_tail : lock.leaveQueue.tail = lock.tail := by
  rw [leaveQueue]
  split_ifs <;> rfl

@[simp] theorem leaveQueue_size : lock.leaveQueue.size = lock.size := by
  rw [leaveQueue]
  split_ifs <;> rfl

@[simp] theorem leaveQueue_readerActive : lock.leaveQueue.readerActive = lock.readerActive := by
  rw [leaveQueue]
  split_ifs <;> rfl

@[simp] theorem leaveQueue_writerActive : lock.leaveQueue.writerActive = lock.writerActive := by
  rw [leaveQueue]
  split_ifs <;> rfl

@[simp] theorem leaveQueue_readerWaiting : lock.leaveQueue.readerWaiting = lock.readerWaiting := by
  rw [leaveQueue]
  split_ifs <;> rfl

@[simp] theorem leaveQueue_writerWaiting : lock.leaveQueue.writerWaiting = lock.writerWaiting := by
  rw [leaveQueue]
  split_ifs <;> rfl

theorem leaveQueue_of_wakesNext (h : lock.WakesNext) : lock.leaveQueue =
    { lock with
      array := Function.update (Function.update lock.array (next lock.size lock.head)
        ⟨true, true⟩) lock.head ⟨false, false⟩
      head := next lock.size lock.head
      signaled := lock.signaled } := by
  rw [WakesNext] at h
  simp [leaveQueue, h, signalHead]

theorem leaveQueue_of_not_wakesNext (h : ¬ lock.WakesNext) : lock.leaveQueue =
    { lock with
      array := Function.update lock.array lock.head ⟨false, false⟩
      head := next lock.size lock.head
      signaled := lock.signaled - 1 } := by
  rw [WakesNext] at h
  simp [leaveQueue, h]

theorem leaveQueue_isReader {i : ℕ} (hi : i ≠ lock.head) :
    (lock.leaveQueue.array i).isReader = (lock.array i).isReader := by
  by_cases h : lock.WakesNext
  · rw [leaveQueue_of_wakesNext h]
    simp only [Function.update_of_ne hi, Function.update_apply]
    split_ifs with hnext
    · rw [hnext, h.2.2]
    · rfl
  · rw [leaveQueue_of_not_wakesNext h]
    simp only [Function.update_of_ne hi]

theorem signalHead_isReader {i : ℕ} :
    (lock.signalHead.array i).isReader = (lock.array i).isReader := by
  simp only [signalHead, Function.update_apply]
  split_ifs with hi
  · rw [hi]
  · rfl

/-- Apart from the signal, giving the lock back only counts the holder off. -/
theorem ulock_fields (lock : SgeFifoRwLock) (isReader : Bool) : ∃ array signaled,
    (∀ i, (array i).isReader = (lock.array i).isReader) ∧
      sgeFifoUlock lock isReader =
        { lock.addActive isReader (-1) with array := array, signaled := signaled } := by
  rw [sgeFifoUlock]
  split_ifs
  · refine ⟨(lock.addActive isReader (-1)).signalHead.array, _, fun i => ?_, rfl⟩
    rw [signalHead_isReader, addActive_array]
  · exact ⟨lock.array, lock.signaled, fun i => rfl, by cases isReader <;> rfl⟩

end SgeFifoRwLock

section Invariant
variable {T : Type*} {lock : SgeFifoRwLock} {place : T → FifoPlace}
  {holders queue : List (T × Bool)} {t : T} {isReader : Bool} {index : ℕ}

/-- The entry of the array belongs to the thread. -/
def SgeFifoRwLock.InSlot (lock : SgeFifoRwLock) (place : T → FifoPlace) (i : ℕ) (x : T × Bool) :
    Prop :=
  (lock.array i).isReader = x.2 ∧ place x.1 = .inQueue x.2 i

@[simp] theorem SgeFifoRwLock.inSlot_addActive {d : ℤ} :
    (lock.addActive isReader d).InSlot place = lock.InSlot place := by
  funext i x
  simp [InSlot]

/-- No thread is on its way, and a holder keeps the head of the queue out. -/
structure SgeFifoRwLock.NoneSignaled (lock : SgeFifoRwLock) (queue : List (T × Bool)) : Prop where
  signaled_eq : lock.signaled = 0
  isSignaled : ∀ i, (lock.array i).isSignaled = false
  kept_out : ∀ x, queue.head? = some x →
    0 < lock.writerActive ∨ x.2 = false ∧ 0 < lock.readerActive

/-- The head of the queue is on its way, and no holder keeps it out. -/
structure SgeFifoRwLock.HeadSignaled (lock : SgeFifoRwLock) (queue : List (T × Bool)) : Prop where
  signaled_eq : lock.signaled = 1
  isSignaled : ∀ i, (lock.array i).isSignaled = true ↔ i = lock.head
  writerActive_eq : lock.writerActive = 0
  let_in : ∃ x, queue.head? = some x ∧ (x.2 = false → lock.readerActive = 0)

structure FifoInv (lock : SgeFifoRwLock) (place : T → FifoPlace)
    (holders queue : List (T × Bool)) : Prop where
  size_eq : lock.size = fifoLockQueueLength
  stores : Stores (lock.InSlot place) lock.size lock.head lock.tail queue
  mem_queue : ∀ t isReader index, place t = .inQueue isReader index → (t, isReader) ∈ queue
  readerWaiting_eq : lock.readerWaiting = queue.countP (·.2)
  writerWaiting_eq : lock.writerWaiting = queue.countP (!·.2)
  readerActive_eq : lock.readerActive = holders.countP (·.2)
  writerActive_eq : lock.writerActive = holders.countP (!·.2)
  writerActive_le : lock.writerActive ≤ 1
  readerActive_of_writer : lock.writerActive = 1 → lock.readerActive = 0
  phase : lock.NoneSignaled queue ∨ lock.HeadSignaled queue

namespace FifoInv

theorem init : FifoInv sgeFifoLockInit (fun _ : T => .running) [] [] where
  size_eq := rfl
  stores := .nil (by decide)
  mem_queue _ _ _ h := by cases h
  readerWaiting_eq := rfl
  writerWaiting_eq := rfl
  readerActive_eq := rfl
  writerActive_eq := rfl
  writerActive_le := by decide
  readerActive_of_writer _ := rfl
  phase := .inl ⟨rfl, fun _ => rfl, fun x hx => by cases hx⟩

theorem set_waiting (h : FifoInv lock place holders queue) (waiting : ℤ) :
    FifoInv { lock with waiting := waiting } place holders queue :=
  ⟨h.size_eq, h.stores, h.mem_queue, h.readerWaiting_eq, h.writerWaiting_eq, h.readerActive_eq,
    h.writerActive_eq, h.writerActive_le, h.readerActive_of_writer,
    h.phase.imp (fun hp => ⟨hp.1, hp.2, hp.3⟩) fun hp => ⟨hp.1, hp.2, hp.3, hp.4⟩⟩

theorem waiting_eq (h : FifoInv lock place holders queue) :
    lock.readerWaiting + lock.writerWaiting = queue.length := by
  have hcount := List.length_eq_countP_add_countP (fun x : T × Bool => x.2) (l := queue)
  have hneg : queue.countP (fun x => ¬ x.2 = true) = queue.countP (!·.2) := by
    congr 1
    funext x
    cases x.2 <;> rfl
  rw [h.readerWaiting_eq, h.writerWaiting_eq]
  omega

theorem length_lt (h : FifoInv lock place holders queue)
    (hfull : ¬ lock.readerWaiting + lock.writerWaiting = fifoLockQueueLength) :
    queue.length < fifoLockQueueLength := by
  have hle := h.stores.length_le
  rw [h.size_eq] at hle
  rw [h.waiting_eq] at hfull
  omega

theorem readerActive_nonneg (h : FifoInv lock place holders queue) : 0 ≤ lock.readerActive := by
  rw [h.readerActive_eq]
  omega

theorem writerActive_nonneg (h : FifoInv lock place holders queue) : 0 ≤ lock.writerActive := by
  rw [h.writerActive_eq]
  omega

theorem exists_slot (h : FifoInv lock place holders queue)
    (ht : place t = .inQueue isReader index) :
    ∃ k, queue[k]? = some (t, isReader) ∧ slot lock.size lock.head k = index := by
  obtain ⟨k, hk⟩ := List.mem_iff_getElem?.mp (h.mem_queue t isReader index ht)
  have hplace := (h.stores.stored k _ hk).2
  rw [ht] at hplace
  cases hplace
  exact ⟨k, hk, rfl⟩

theorem eq_head (h : FifoInv lock place holders queue) (ht : place t = .inQueue isReader index)
    (hsignaled : (lock.array index).isSignaled = true) :
    lock.HeadSignaled queue ∧ index = lock.head ∧ queue.head? = some (t, isReader) := by
  rcases h.phase with hphase | hphase
  · simp [hphase.isSignaled index] at hsignaled
  have hindex := (hphase.isSignaled index).mp hsignaled
  refine ⟨hphase, hindex, ?_⟩
  obtain ⟨k, hk, hslot⟩ := h.exists_slot ht
  have hstored := h.stores.stored k _ hk
  apply h.stores.eq_head ?_ (List.mem_of_getElem? hk) ?_
  · rintro i j y ⟨-, hi⟩ ⟨-, hj⟩
    rw [hi] at hj
    cases hj
    rfl
  · rwa [hslot, hindex] at hstored

theorem ne_of_mem (h : FifoInv lock place holders queue)
    (ht : ∀ isReader index, place t ≠ .inQueue isReader index) {x : T × Bool} (hx : x ∈ queue) :
    x.1 ≠ t := by
  obtain ⟨k, hk⟩ := List.mem_iff_getElem?.mp hx
  have hslot := h.stores.stored k x hk
  rintro rfl
  exact ht _ _ hslot.2

theorem phase_append (h : FifoInv lock place holders queue)
    (hfree : queue.length < fifoLockQueueLength) (hwait : lock.doWaitInQueue isReader = true) :
    (lock.append isReader).NoneSignaled (queue ++ [(t, isReader)]) ∨
      (lock.append isReader).HeadSignaled (queue ++ [(t, isReader)]) := by
  rcases h.phase with hphase | hphase
  · refine .inl ⟨by simpa [SgeFifoRwLock.append] using hphase.signaled_eq, fun i => ?_, ?_⟩
    · simp only [SgeFifoRwLock.append, SgeFifoRwLock.addWaiting_array, Function.update_apply]
      split_ifs
      · rfl
      · exact hphase.isSignaled i
    · intro x hx
      simp only [SgeFifoRwLock.append, SgeFifoRwLock.addWaiting_readerActive,
        SgeFifoRwLock.addWaiting_writerActive]
      by_cases hempty : queue = []
      · -- the thread has found a holder in its way
        subst hempty
        cases hx
        have hwriter := h.writerWaiting_eq
        have hsignaled := hphase.signaled_eq
        have hreaders := h.readerActive_nonneg
        have hwriters := h.writerActive_nonneg
        cases isReader with
        | true =>
            simp [SgeFifoRwLock.doWaitInQueue] at hwait hwriter
            omega
        | false =>
            simp [SgeFifoRwLock.doWaitInQueue] at hwait ⊢
            omega
      · rw [List.head?_append_of_ne_nil _ hempty] at hx
        exact hphase.kept_out x hx
  · obtain ⟨x, hx, hin⟩ := hphase.let_in
    have hempty : queue ≠ [] := by
      rintro rfl
      cases hx
    have htail : lock.head ≠ lock.tail := by
      have hne := h.stores.slot_ne_tail (h.size_eq ▸ hfree) (List.length_pos_iff.mpr hempty)
      rwa [slot_zero h.stores.head_lt] at hne
    refine .inr ⟨by simpa [SgeFifoRwLock.append] using hphase.signaled_eq, fun i => ?_,
      by simpa [SgeFifoRwLock.append] using hphase.writerActive_eq, x, ?_,
      by simpa [SgeFifoRwLock.append] using hin⟩
    · simp only [SgeFifoRwLock.append, SgeFifoRwLock.addWaiting_array, Function.update_apply,
        SgeFifoRwLock.addWaiting_head]
      split_ifs with heq
      · simpa [heq] using htail.symm
      · exact hphase.isSignaled i
    · rwa [List.head?_append_of_ne_nil _ hempty]

/-- A thread that need not wait has found the queue empty and no holder in its way. -/
theorem free_of_not_wait (h : FifoInv lock place holders queue)
    (hwait : lock.doWaitInQueue isReader = false) :
    lock.NoneSignaled queue ∧ queue = [] ∧ lock.writerActive = 0 ∧
      (isReader = false → lock.readerActive = 0) := by
  have hreaders := h.readerActive_nonneg
  have hwriters := h.writerActive_nonneg
  have hwaiting := h.writerWaiting_eq
  rcases h.phase with hphase | hphase
  · have hsignaled := hphase.signaled_eq
    have hwriter : lock.writerActive = 0 := by
      cases isReader <;> simp [SgeFifoRwLock.doWaitInQueue] at hwait <;> omega
    have hreader : isReader = false → lock.readerActive = 0 := by
      rintro rfl
      simp [SgeFifoRwLock.doWaitInQueue] at hwait
      omega
    refine ⟨hphase, ?_, hwriter, hreader⟩
    cases queue with
    | nil => rfl
    | cons x rest =>
        rcases hphase.kept_out x rfl with hout | ⟨hx, hout⟩
        · omega
        · cases isReader with
          | true =>
              simp [SgeFifoRwLock.doWaitInQueue, hx] at hwait hwaiting
              omega
          | false =>
              have := hreader rfl
              omega
  · have hsignaled := hphase.signaled_eq
    cases isReader <;> simp [SgeFifoRwLock.doWaitInQueue] at hwait <;> omega

theorem phase_leave {rest : List (T × Bool)}
    (h : FifoInv lock place holders ((t, isReader) :: rest))
    (hphase : lock.HeadSignaled ((t, isReader) :: rest)) :
    ((lock.addWaiting isReader (-1)).leaveQueue.addActive isReader 1).NoneSignaled rest ∨
      ((lock.addWaiting isReader (-1)).leaveQueue.addActive isReader 1).HeadSignaled rest := by
  have hhead := h.stores.stored_head
  have hne : next lock.size lock.head ≠ lock.head :=
    next_ne (by rw [h.size_eq]; decide)
  have hwaiting := h.readerWaiting_eq
  have hreaders := h.readerActive_nonneg
  have hwriter := hphase.writerActive_eq
  by_cases hnext : (lock.addWaiting isReader (-1)).WakesNext
  · -- the head of the rest is a reader and is signaled in turn
    rw [SgeFifoRwLock.leaveQueue_of_wakesNext hnext]
    obtain ⟨hreader, hpos, hreader'⟩ := hnext
    simp only [SgeFifoRwLock.addWaiting_array, SgeFifoRwLock.addWaiting_head,
      SgeFifoRwLock.addWaiting_size, SgeFifoRwLock.addWaiting_readerWaiting] at hreader hpos hreader'
    rw [hhead.1] at hreader
    dsimp only at hreader
    subst hreader
    refine .inr ⟨by simpa using hphase.signaled_eq, fun i => ?_, by simpa using hwriter, ?_⟩
    · simp only [SgeFifoRwLock.addActive_array, SgeFifoRwLock.addWaiting_array,
        SgeFifoRwLock.addWaiting_head, SgeFifoRwLock.addWaiting_size,
        SgeFifoRwLock.addActive_head, Function.update_apply]
      split_ifs with hi hi'
      · simp [hi, hne.symm]
      · simpa using hi'
      · rw [hphase.isSignaled]
        simp [hi, hi']
    · cases rest with
      | nil => simp [hwaiting] at hpos
      | cons y rest =>
          refine ⟨y, rfl, fun hy => ?_⟩
          have hslot := h.stores.stored 1 y rfl
          rw [← next_slot h.stores.head_lt, slot_zero h.stores.head_lt] at hslot
          rw [hslot.1, hy] at hreader'
          cases hreader'
  · rw [SgeFifoRwLock.leaveQueue_of_not_wakesNext hnext]
    refine .inl ⟨by simp [hphase.signaled_eq], fun i => ?_, fun y hy => ?_⟩
    · simp only [SgeFifoRwLock.addActive_array, SgeFifoRwLock.addWaiting_array,
        SgeFifoRwLock.addWaiting_head, Function.update_apply]
      split_ifs with hi
      · rfl
      · rw [← Bool.not_eq_true, hphase.isSignaled]
        exact hi
    · simp only [SgeFifoRwLock.addActive_writerActive, SgeFifoRwLock.addActive_readerActive,
        SgeFifoRwLock.addWaiting_writerActive, SgeFifoRwLock.addWaiting_readerActive]
      cases isReader with
      | false =>
          simp only [Bool.false_eq_true, if_false]
          omega
      | true =>
          refine .inr ⟨?_, by simp only [if_true]; omega⟩
          -- a reader at the head of the rest would have been woken
          by_contra hy'
          rw [Bool.not_eq_false] at hy'
          cases rest with
          | nil => cases hy
          | cons z rest =>
              cases hy
              apply hnext
              refine ⟨by simpa using hhead.1, ?_, ?_⟩
              · simp [hwaiting, hy']
              · have hslot := h.stores.stored 1 y rfl
                rw [← next_slot h.stores.head_lt, slot_zero h.stores.head_lt] at hslot
                simpa [hy'] using hslot.1

variable [DecidableEq T]

/-- A thread outside the queue goes to another place outside the queue. -/
theorem move (h : FifoInv lock place holders queue)
    (ht : ∀ isReader index, place t ≠ .inQueue isReader index) {p : FifoPlace}
    (hp : ∀ isReader index, p ≠ .inQueue isReader index) :
    FifoInv lock (Function.update place t p) holders queue where
  __ := h
  stores := h.stores.imp fun k x hx hslot => by
    refine ⟨hslot.1, ?_⟩
    rw [Function.update_of_ne (h.ne_of_mem ht (List.mem_of_getElem? hx))]
    exact hslot.2
  mem_queue t' isReader index h' := by
    rw [Function.update_apply] at h'
    split_ifs at h' with heq
    · exact absurd h' (hp _ _)
    · exact h.mem_queue t' isReader index h'

theorem append (h : FifoInv lock place holders queue)
    (ht : ∀ isReader index, place t ≠ .inQueue isReader index)
    (hfree : queue.length < fifoLockQueueLength) (hwait : lock.doWaitInQueue isReader = true) :
    FifoInv (lock.append isReader) (Function.update place t (.inQueue isReader lock.tail)) holders
      (queue ++ [(t, isReader)]) := by
  refine ⟨by simp [SgeFifoRwLock.append, h.size_eq], ?_, ?_, ?_, ?_, ?_, ?_, ?_, ?_,
    h.phase_append hfree hwait⟩
  · simp only [SgeFifoRwLock.append, SgeFifoRwLock.addWaiting_size,
      SgeFifoRwLock.addWaiting_head, SgeFifoRwLock.addWaiting_tail]
    apply h.stores.push (h.size_eq ▸ hfree)
    · rintro i x hx hne ⟨hreader, hplace⟩
      refine ⟨?_, ?_⟩
      · simpa [Function.update_of_ne hne] using hreader
      · rwa [Function.update_of_ne (h.ne_of_mem ht hx)]
    · simp [SgeFifoRwLock.InSlot]
  · intro t' isReader' index h'
    rw [Function.update_apply] at h'
    split_ifs at h' with heq
    · cases h'
      simp [heq]
    · exact List.mem_append_left _ (h.mem_queue t' isReader' index h')
  · simp only [SgeFifoRwLock.append, SgeFifoRwLock.addWaiting_readerWaiting, h.readerWaiting_eq,
      List.countP_append]
    cases isReader <;> simp
  · simp only [SgeFifoRwLock.append, SgeFifoRwLock.addWaiting_writerWaiting, h.writerWaiting_eq,
      List.countP_append]
    cases isReader <;> simp
  · simpa [SgeFifoRwLock.append] using h.readerActive_eq
  · simpa [SgeFifoRwLock.append] using h.writerActive_eq
  · simpa [SgeFifoRwLock.append] using h.writerActive_le
  · simpa [SgeFifoRwLock.append] using h.readerActive_of_writer

theorem take (h : FifoInv lock place holders queue)
    (ht : ∀ isReader index, place t ≠ .inQueue isReader index)
    (hwait : lock.doWaitInQueue isReader = false) :
    FifoInv (lock.addActive isReader 1) (Function.update place t .running)
      ((t, isReader) :: holders) queue := by
  obtain ⟨hphase, hempty, hwriter, hreader⟩ := h.free_of_not_wait hwait
  have hmove := h.move ht (p := .running) fun _ _ h' => by cases h'
  subst hempty
  refine ⟨by simpa using h.size_eq, ?_, hmove.mem_queue, by simpa using h.readerWaiting_eq,
    by simpa using h.writerWaiting_eq, ?_, ?_, ?_, ?_, .inl ?_⟩
  · simpa [SgeFifoRwLock.InSlot] using hmove.stores
  · rw [SgeFifoRwLock.addActive_readerActive, h.readerActive_eq, List.countP_cons]
    cases isReader <;> simp
  · rw [SgeFifoRwLock.addActive_writerActive, h.writerActive_eq, List.countP_cons]
    cases isReader <;> simp
  · rw [SgeFifoRwLock.addActive_writerActive, hwriter]
    cases isReader <;> simp
  · rw [SgeFifoRwLock.addActive_writerActive, SgeFifoRwLock.addActive_readerActive, hwriter]
    cases isReader with
    | true => simp
    | false => simpa using hreader rfl
  · exact ⟨by simpa using hphase.signaled_eq, by simpa using hphase.isSignaled,
      fun x hx => by cases hx⟩

theorem leave {rest : List (T × Bool)} (h : FifoInv lock place holders ((t, isReader) :: rest))
    (hphase : lock.HeadSignaled ((t, isReader) :: rest)) :
    FifoInv ((lock.addWaiting isReader (-1)).leaveQueue.addActive isReader 1)
      (Function.update place t .running) ((t, isReader) :: holders) rest := by
  have hhead := h.stores.stored_head
  obtain ⟨x, hx, hin⟩ := hphase.let_in
  cases hx
  refine ⟨by simpa using h.size_eq, ?_, ?_, ?_, ?_, ?_, ?_, ?_, ?_, h.phase_leave hphase⟩
  · simp only [SgeFifoRwLock.inSlot_addActive, SgeFifoRwLock.addActive_size,
      SgeFifoRwLock.addActive_head, SgeFifoRwLock.addActive_tail, SgeFifoRwLock.leaveQueue_size,
      SgeFifoRwLock.leaveQueue_head, SgeFifoRwLock.leaveQueue_tail, SgeFifoRwLock.addWaiting_size,
      SgeFifoRwLock.addWaiting_head, SgeFifoRwLock.addWaiting_tail]
    apply h.stores.pop
    rintro i y hy hne ⟨hreader, hplace⟩
    have ht : y.1 ≠ t := by
      intro heq
      rw [heq, hhead.2] at hplace
      cases hplace
      exact hne rfl
    refine ⟨?_, by rwa [Function.update_of_ne ht]⟩
    rw [SgeFifoRwLock.leaveQueue_isReader (by simpa using hne)]
    simpa using hreader
  · intro t' isReader' index h'
    rw [Function.update_apply] at h'
    split_ifs at h' with heq
    rcases List.mem_cons.mp (h.mem_queue t' isReader' index h') with hmem | hmem
    · cases hmem
      exact absurd rfl heq
    · exact hmem
  · simp only [SgeFifoRwLock.addActive_readerWaiting, SgeFifoRwLock.leaveQueue_readerWaiting,
      SgeFifoRwLock.addWaiting_readerWaiting, h.readerWaiting_eq, List.countP_cons]
    cases isReader <;> simp
  · simp only [SgeFifoRwLock.addActive_writerWaiting, SgeFifoRwLock.leaveQueue_writerWaiting,
      SgeFifoRwLock.addWaiting_writerWaiting, h.writerWaiting_eq, List.countP_cons]
    cases isReader <;> simp
  · simp only [SgeFifoRwLock.addActive_readerActive, SgeFifoRwLock.leaveQueue_readerActive,
      SgeFifoRwLock.addWaiting_readerActive, h.readerActive_eq, List.countP_cons]
    cases isReader <;> simp
  · simp only [SgeFifoRwLock.addActive_writerActive, SgeFifoRwLock.leaveQueue_writerActive,
      SgeFifoRwLock.addWaiting_writerActive, h.writerActive_eq, List.countP_cons]
    cases isReader <;> simp
  · simp only [SgeFifoRwLock.addActive_writerActive, SgeFifoRwLock.leaveQueue_writerActive,
      SgeFifoRwLock.addWaiting_writerActive, hphase.writerActive_eq]
    cases isReader <;> simp
  · simp only [SgeFifoRwLock.addActive_writerActive, SgeFifoRwLock.leaveQueue_writerActive,
      SgeFifoRwLock.addWaiting_writerActive, hphase.writerActive_eq,
      SgeFifoRwLock.addActive_readerActive, SgeFifoRwLock.leaveQueue_readerActive,
      SgeFifoRwLock.addWaiting_readerActive]
    cases isReader with
    | true => simp
    | false => simpa using hin rfl

theorem countP_erase {p : T × Bool → Bool} {x : T × Bool} (hmem : x ∈ holders) :
    ((holders.erase x).countP p : ℤ) = holders.countP p + if p x then -1 else 0 := by
  have hperm := (List.perm_cons_erase hmem).countP_eq p
  rw [List.countP_cons] at hperm
  split_ifs at hperm ⊢ <;> omega

/-- With nobody signaled, giving the lock back signals the head or leaves a holder that keeps it
out. -/
theorem phase_ulock (h : FifoInv lock place holders queue) (hmem : (t, isReader) ∈ holders) :
    (sgeFifoUlock lock isReader).NoneSignaled queue ∨
      (sgeFifoUlock lock isReader).HeadSignaled queue := by
  have hreaders := countP_erase (p := (·.2)) hmem
  have hwriters := countP_erase (p := (!·.2)) hmem
  rw [← h.readerActive_eq] at hreaders
  rw [← h.writerActive_eq] at hwriters
  have hwaiting := h.waiting_eq
  have hexclusive := h.readerActive_of_writer
  have hle := h.writerActive_le
  have hsum : (lock.addActive isReader (-1)).readerActive +
      (lock.addActive isReader (-1)).writerActive + (lock.addActive isReader (-1)).signaled =
        lock.readerActive + lock.writerActive + lock.signaled - 1 := by
    cases isReader <;> simp <;> ring
  have hlen : (lock.addActive isReader (-1)).readerWaiting +
      (lock.addActive isReader (-1)).writerWaiting = queue.length := by simpa using hwaiting
  simp only [sgeFifoUlock, hsum, hlen]
  rcases h.phase with hphase | hphase
  · have hsignaled := hphase.signaled_eq
    split_ifs with hfree
    · obtain ⟨hzero, hpos⟩ := hfree
      obtain ⟨x, hx⟩ : ∃ x, queue.head? = some x := by
        cases queue with
        | nil => simp at hpos
        | cons x rest => exact ⟨x, rfl⟩
      refine .inr ⟨by simp [SgeFifoRwLock.signalHead, hsignaled], fun i => ?_, ?_, x, hx, fun _ => ?_⟩
      · simp only [SgeFifoRwLock.signalHead, SgeFifoRwLock.addActive_array,
          SgeFifoRwLock.addActive_head, Function.update_apply]
        split_ifs with hi
        · simp [hi]
        · simp [hphase.isSignaled i, hi]
      · simp only [SgeFifoRwLock.signalHead, SgeFifoRwLock.addActive_writerActive]
        cases isReader <;> simp at hreaders hwriters ⊢ <;> omega
      · simp only [SgeFifoRwLock.signalHead, SgeFifoRwLock.addActive_readerActive]
        cases isReader <;> simp at hreaders hwriters ⊢ <;> omega
    · refine .inl ⟨by simpa using hsignaled, by simpa using hphase.isSignaled, fun x hx => ?_⟩
      have hpos : 0 < queue.length := by
        cases queue with
        | nil => cases hx
        | cons => simp
      have hkept := hphase.kept_out x hx
      have hzero : lock.readerActive + lock.writerActive ≠ 1 := by
        intro hone
        exact hfree ⟨by omega, by omega⟩
      simp only [SgeFifoRwLock.addActive_writerActive, SgeFifoRwLock.addActive_readerActive]
      cases isReader with
      | true =>
          simp at hreaders hwriters ⊢
          rcases hkept with hkept | ⟨hx', hkept⟩
          · exact .inl hkept
          · exact .inr ⟨hx', by omega⟩
      | false =>
          simp at hreaders hwriters ⊢
          omega
  · have hsignaled := hphase.signaled_eq
    have hwriter := hphase.writerActive_eq
    cases isReader with
    | false =>
        simp at hwriters
        omega
    | true =>
        simp at hreaders hwriters
        obtain ⟨x, hx, hin⟩ := hphase.let_in
        rw [if_neg (by omega)]
        refine .inr ⟨by simpa using hsignaled, by simpa using hphase.isSignaled,
          by simpa using hwriter, x, hx, fun hx' => ?_⟩
        have := hin hx'
        omega

theorem ulock (h : FifoInv lock place holders queue) (hmem : (t, isReader) ∈ holders) :
    FifoInv (sgeFifoUlock lock isReader) place (holders.erase (t, isReader)) queue := by
  have hreaders := countP_erase (p := (·.2)) hmem
  have hwriters := countP_erase (p := (!·.2)) hmem
  rw [← h.readerActive_eq] at hreaders
  rw [← h.writerActive_eq] at hwriters
  have hphase := h.phase_ulock hmem
  obtain ⟨array, signaled, hisReader, heq⟩ := SgeFifoRwLock.ulock_fields lock isReader
  rw [heq] at hphase ⊢
  have hle := h.writerActive_le
  have hexclusive := h.readerActive_of_writer
  have hactive := h.readerActive_nonneg
  refine ⟨by simpa using h.size_eq, ?_, h.mem_queue, by simpa using h.readerWaiting_eq,
    by simpa using h.writerWaiting_eq, ?_, ?_, ?_, ?_, hphase⟩
  · simp only [SgeFifoRwLock.addActive_size, SgeFifoRwLock.addActive_head,
      SgeFifoRwLock.addActive_tail]
    exact h.stores.imp fun k x _ hslot => ⟨(hisReader _).trans hslot.1, hslot.2⟩
  · rw [hreaders]
    simp
  · rw [hwriters]
    cases isReader <;> simp
  · cases isReader <;> simp <;> omega
  · cases isReader <;> simp at hreaders hwriters ⊢ <;> omega

end FifoInv

end Invariant

end GridEngine
