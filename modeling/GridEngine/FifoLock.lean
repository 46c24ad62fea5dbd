import GridEngine.RingQueue

/-!
# The fair read/write lock

`sge_fifo_lock` and `sge_fifo_ulock` of `libs/uti/sge_lock_fifo.c`. What a thread does between
getting the mutex and releasing it, or waiting on a condition, is one step. A wait on a condition
may end at any time, so that the signals sent to the conditions need no place in the state.
-/

namespace GridEngine

/-- `sge_fifo_elem_t` -/
structure SgeFifoElem where
  isReader : Bool
  isSignaled : Bool
deriving DecidableEq, Repr

/-- `sge_fifo_rw_lock_t` -/
structure SgeFifoRwLock where
  array : ℕ → SgeFifoElem
  head : ℕ
  tail : ℕ
  size : ℕ
  readerActive : ℤ
  readerWaiting : ℤ
  writerActive : ℤ
  writerWaiting : ℤ
  waiting : ℤ
  signaled : ℤ

/-- `FIFO_LOCK_QUEUE_LENGTH` -/
def fifoLockQueueLength : ℕ := 64

def sgeFifoLockInit : SgeFifoRwLock where
  array _ := ⟨false, false⟩
  head := 0
  tail := 0
  size := fifoLockQueueLength
  readerActive := 0
  readerWaiting := 0
  writerActive := 0
  writerWaiting := 0
  waiting := 0
  signaled := 0

/-- Where the mutex is given up: behind the call, or in one of the two waits. -/
inductive FifoPlace where
  | running
  | outside (isReader : Bool)
  | inQueue (isReader : Bool) (index : ℕ)
deriving DecidableEq, Repr

namespace SgeFifoRwLock

/-- Adds `d` to the number of readers or writers that wait in the queue. -/
def addWaiting (lock : SgeFifoRwLock) (isReader : Bool) (d : ℤ) : SgeFifoRwLock :=
  if isReader then { lock with readerWaiting := lock.readerWaiting + d }
  else { lock with writerWaiting := lock.writerWaiting + d }

/-- Adds `d` to the number of readers or writers that have the lock. -/
def addActive (lock : SgeFifoRwLock) (isReader : Bool) (d : ℤ) : SgeFifoRwLock :=
  if isReader then { lock with readerActive := lock.readerActive + d }
  else { lock with writerActive := lock.writerActive + d }

/-- Signals the thread at the head of the queue. -/
def signalHead (lock : SgeFifoRwLock) : SgeFifoRwLock :=
  { lock with
    array := Function.update lock.array lock.head
      ⟨(lock.array lock.head).isReader, true⟩
    signaled := lock.signaled + 1 }

/-- The test for `do_wait_in_queue`. -/
def doWaitInQueue (lock : SgeFifoRwLock) (isReader : Bool) : Bool :=
  if isReader then decide (0 < lock.writerActive + lock.writerWaiting + lock.signaled)
  else decide (0 < lock.writerActive + lock.readerActive + lock.signaled)

/-- The thread becomes the last one of the queue and waits. -/
def append (lock : SgeFifoRwLock) (isReader : Bool) : SgeFifoRwLock :=
  { lock with
    array := Function.update lock.array lock.tail ⟨isReader, false⟩
    tail := RingQueue.next lock.size lock.tail }.addWaiting isReader 1

/-- The thread at the head leaves the queue. It wakes the next one if both are readers. -/
def leaveQueue (lock : SgeFifoRwLock) : SgeFifoRwLock :=
  let index := lock.head
  let lock := { lock with
    signaled := lock.signaled - 1
    head := RingQueue.next lock.size lock.head }
  let lock := if (lock.array index).isReader = true ∧ 0 < lock.readerWaiting ∧
      (lock.array lock.head).isReader = true then lock.signalHead else lock
  { lock with array := Function.update lock.array index ⟨false, false⟩ }

end SgeFifoRwLock

/-- `sge_fifo_lock` from the test for space in the queue to the next wait or to the end. -/
def sgeFifoLock (lock : SgeFifoRwLock) (isReader : Bool) : SgeFifoRwLock × FifoPlace :=
  if lock.readerWaiting + lock.writerWaiting = fifoLockQueueLength then
    ({ lock with waiting := lock.waiting + 1 }, .outside isReader)
  else if lock.doWaitInQueue isReader then
    (lock.append isReader, .inQueue isReader lock.tail)
  else (lock.addActive isReader 1, .running)

/-- `sge_fifo_lock` after the wait for space in the queue. -/
def sgeFifoLockOutside (lock : SgeFifoRwLock) (isReader : Bool) : SgeFifoRwLock × FifoPlace :=
  sgeFifoLock { lock with waiting := lock.waiting - 1 } isReader

/-- `sge_fifo_lock` after the wait in the queue. -/
def sgeFifoLockInQueue (lock : SgeFifoRwLock) (isReader : Bool) (index : ℕ) :
    SgeFifoRwLock × FifoPlace :=
  let lock := lock.addWaiting isReader (-1)
  if (lock.array index).isSignaled = false then
    (lock.addWaiting isReader 1, .inQueue isReader index)
  else (lock.leaveQueue.addActive isReader 1, .running)

/-- `sge_fifo_ulock` -/
def sgeFifoUlock (lock : SgeFifoRwLock) (isReader : Bool) : SgeFifoRwLock :=
  let lock := lock.addActive isReader (-1)
  if lock.readerActive + lock.writerActive + lock.signaled = 0 ∧
      0 < lock.readerWaiting + lock.writerWaiting then lock.signalHead
  else lock

variable {T : Type*} [DecidableEq T]

/-- A lock and the threads that use it. `holders` has an entry for every lock that is held,
`arrivals` and `grants` record who entered the queue and who got the lock out of it. -/
structure FifoSystem (T : Type*) where
  lock : SgeFifoRwLock
  place : T → FifoPlace
  holders : List (T × Bool)
  arrivals : List (T × Bool)
  grants : List (T × Bool)

namespace FifoSystem

def init : FifoSystem T where
  lock := sgeFifoLockInit
  place _ := .running
  holders := []
  arrivals := []
  grants := []

/-- The threads in the queue, the one that came first at the front. -/
def queue (s : FifoSystem T) : List (T × Bool) := s.arrivals.drop s.grants.length

/-- Thread `t` has run to the next wait or to the end of `sge_fifo_lock`. -/
def enter (s : FifoSystem T) (t : T) (isReader : Bool) (result : SgeFifoRwLock × FifoPlace) :
    FifoSystem T :=
  { s with
    lock := result.1
    place := Function.update s.place t result.2
    holders := if result.2 = .running then (t, isReader) :: s.holders else s.holders
    arrivals := match result.2 with
      | .inQueue .. => s.arrivals ++ [(t, isReader)]
      | _ => s.arrivals }

/-- A thread in the queue has run to the next wait or to the end of `sge_fifo_lock`. -/
def proceed (s : FifoSystem T) (t : T) (isReader : Bool) (result : SgeFifoRwLock × FifoPlace) :
    FifoSystem T :=
  if result.2 = .running then
    { s with
      lock := result.1
      place := Function.update s.place t .running
      holders := (t, isReader) :: s.holders
      grants := s.grants ++ [(t, isReader)] }
  else { s with lock := result.1 }

end FifoSystem

/-- What a thread may do: call one of the two functions, or go on after a wait. -/
inductive FifoAction (T : Type*) where
  | lock (t : T) (isReader : Bool)
  | wake (t : T)
  | ulock (t : T) (isReader : Bool)
deriving DecidableEq, Repr

/-- A thread calls only when it is in no call, and unlocks only what it holds. -/
def FifoSystem.step (s : FifoSystem T) : FifoAction T → Option (FifoSystem T)
  | .lock t isReader =>
      if s.place t = .running then some (s.enter t isReader (sgeFifoLock s.lock isReader)) else none
  | .wake t =>
      match s.place t with
      | .running => none
      | .outside isReader => some (s.enter t isReader (sgeFifoLockOutside s.lock isReader))
      | .inQueue isReader index =>
          some (s.proceed t isReader (sgeFifoLockInQueue s.lock isReader index))
  | .ulock t isReader =>
      if s.place t = .running ∧ (t, isReader) ∈ s.holders then
        some { s with
          lock := sgeFifoUlock s.lock isReader
          holders := s.holders.erase (t, isReader) }
      else none

end GridEngine
