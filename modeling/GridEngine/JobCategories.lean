import Mathlib.Data.Int.Notation
import Mathlib.Data.List.Basic

/-!
# Job categories of the scheduler

`daemons/qmaster/sge_sched_job_category.c`: the categories the jobs refer to, and the categories of
the category scheduler, which refer to the jobs and are kept only with job category filtering.
-/

namespace GridEngine

/-- The memory a new element gets is not in use. -/
abbrev Malloc := { malloc : List ℕ → ℕ // ∀ used, malloc used ∉ used }

/-- `CT_Type`, and the address that `JB_category` refers to -/
structure CtElem where
  address : ℕ
  str : String
  refcount : ℕ
  count : ℤ
  rejected : ℕ
  messagesAdded : Bool
  rcValid : Bool
  reservationRejected : ℕ
deriving DecidableEq, Repr

/-- `SCT_Type` -/
structure SctElem (J : Type*) where
  str : String
  jobPendingRef : List J
  jobRef : List J
deriving DecidableEq, Repr

/-- What the categories read of a job. `request` is what only the text of the first category
depends on. -/
structure CategoryJob (D : Type*) where
  jaTasks : List ℕ
  deadline : ℕ
  priority : ℕ
  overrideTickets : ℕ
  jobshare : ℕ
  owner : String
  project : Option String
  request : D
deriving DecidableEq, Repr

/-- The static variables, the jobs and their `JB_category`. -/
structure CategoryState (J D : Type*) where
  categoryList : List CtElem
  csCategoryList : List (SctElem J)
  rebCat : Bool
  jobs : J → CategoryJob D
  category : J → Option ℕ

def isJobPending {D : Type*} (job : CategoryJob D) : Bool := job.jaTasks.head?.isNone

/-- `sge_build_job_cs_category` -/
def sgeBuildJobCsCategory {D : Type*} (job : CategoryJob D) (catObj : ℕ) (didProject : Bool) :
    String :=
  "-dl " ++ toString job.deadline ++ "-p " ++ toString job.priority ++
    "-ot " ++ toString job.overrideTickets ++ "-js " ++ toString job.jobshare ++
    "-u " ++ job.owner ++
    (match job.project with
      | some p => if didProject then "" else " -P " ++ p
      | none => "") ++
    " " ++ String.ofList (Nat.toDigits 16 catObj)

/-- Sets a field of the element at an address. -/
def updateCategory (address : ℕ) (f : CtElem → CtElem) (categoryList : List CtElem) :
    List CtElem :=
  categoryList.map fun cat => if cat.address = address then f cat else cat

section Jobs
variable {J D L : Type*} [DecidableEq J]

def SctElem.addRef (cat : SctElem J) (pending : Bool) (job : J) : SctElem J :=
  if pending then { cat with jobPendingRef := cat.jobPendingRef ++ [job] }
  else { cat with jobRef := cat.jobRef ++ [job] }

/-- The second part of `sge_add_job_category`. -/
def addJobRef (cstr : String) (pending : Bool) (job : J) : List (SctElem J) → List (SctElem J)
  | [] => [SctElem.addRef ⟨cstr, [], []⟩ pending job]
  | cat :: rest =>
      if cat.str = cstr then cat.addRef pending job :: rest
      else cat :: addJobRef cstr pending job rest

def SctElem.removeRef (cat : SctElem J) (pending : Bool) (job : J) : SctElem J :=
  if pending then
    if job ∈ cat.jobPendingRef then { cat with jobPendingRef := cat.jobPendingRef.erase job }
    else { cat with jobRef := cat.jobRef.erase job }
  else
    if job ∈ cat.jobRef then { cat with jobRef := cat.jobRef.erase job }
    else { cat with jobPendingRef := cat.jobPendingRef.erase job }

/-- The second part of `sge_delete_job_category`. -/
def deleteJobRef (pending : Bool) (job : J) : List (SctElem J) → List (SctElem J)
  | [] => []
  | cat :: rest =>
      if job ∈ cat.jobPendingRef ∨ job ∈ cat.jobRef then
        let cat := cat.removeRef pending job
        if cat.jobPendingRef.length = 0 ∧ cat.jobRef.length = 0 then rest else cat :: rest
      else cat :: deleteJobRef pending job rest

/-- The text of the first category. `build` stands for `sge_build_job_category_dstring`: it also
tells whether the project is part of the text. -/
def categoryText (build : CategoryJob D → L → String × Bool) (job : CategoryJob D) (lists : L) :
    String :=
  if (build job lists).1 = "" then "no-requests" else (build job lists).1

/-- The first category with the text, which is added when there is none. -/
def findCategory (m : Malloc) (cstr : String) (categoryList : List CtElem) :
    CtElem × List CtElem :=
  match categoryList.find? (fun cat => cat.str = cstr) with
  | some cat => (cat, categoryList)
  | none =>
      let cat : CtElem := ⟨m.1 (categoryList.map (·.address)), cstr, 0, 0, 0, false, false, 0⟩
      (cat, categoryList ++ [cat])

def sgeAddJobCategory (filtering : Bool) (build : CategoryJob D → L → String × Bool) (lists : L)
    (m : Malloc) (s : CategoryState J D) (job : J) : CategoryState J D :=
  let found := findCategory m (categoryText build (s.jobs job) lists) s.categoryList
  let cat := found.1.address
  { s with
    categoryList := updateCategory cat (fun e => { e with refcount := e.refcount + 1 }) found.2
    category := Function.update s.category job (some cat)
    csCategoryList :=
      if filtering then
        addJobRef (sgeBuildJobCsCategory (s.jobs job) cat (build (s.jobs job) lists).2)
          (isJobPending (s.jobs job)) job s.csCategoryList
      else s.csCategoryList }

/-- The first part of `sge_delete_job_category`. -/
def releaseCategory (address : ℕ) (categoryList : List CtElem) : List CtElem :=
  match categoryList.find? (fun cat => cat.address = address) with
  | none => categoryList
  | some cat =>
      if 1 < cat.refcount then
        updateCategory address (fun e => { e with refcount := e.refcount - 1 }) categoryList
      else categoryList.filter fun e => e.address ≠ address

def sgeDeleteJobCategory (filtering : Bool) (s : CategoryState J D) (job : J) :
    CategoryState J D :=
  { s with
    categoryList :=
      match s.category job with
      | some cat => releaseCategory cat s.categoryList
      | none => s.categoryList
    category := Function.update s.category job none
    csCategoryList :=
      if filtering then deleteJobRef (isJobPending (s.jobs job)) job s.csCategoryList
      else s.csCategoryList }

def sgeIsJobCategoryRejected (cat : CtElem) : Bool := cat.rejected ≠ 0

def sgeIsJobCategoryReservationRejected (cat : CtElem) : Bool := cat.reservationRejected ≠ 0

def sgeRejectCategory (s : CategoryState J D) (cat : ℕ) (withReservation : Bool) :
    CategoryState J D :=
  { s with
    categoryList := updateCategory cat (fun e =>
      if withReservation then { e with rejected := 1, reservationRejected := 1 }
      else { e with rejected := 1 }) s.categoryList }

def sgeRebuildJobCategory (filtering : Bool) (build : CategoryJob D → L → String × Bool)
    (lists : L) (m : Malloc) (jobList : List J) (s : CategoryState J D) : CategoryState J D :=
  if s.rebCat then
    { jobList.foldl (sgeAddJobCategory filtering build lists m)
        { s with categoryList := [], csCategoryList := [] } with
      rebCat := false }
  else s

def sgeResetJobCategory (s : CategoryState J D) : CategoryState J D :=
  { s with
    categoryList := s.categoryList.map fun cat =>
      { cat with rejected := 0, count := -1, messagesAdded := false, rcValid := false } }

/-- The scheduler's job list beside the categories. `text` records the text a job's category was
built with, and `reserved` the categories that were rejected with reservation and still exist. -/
structure CategorySystem (J D : Type*) where
  books : CategoryState J D
  jobList : List J
  text : J → String
  reserved : List ℕ

inductive CategoryAction (J D L : Type*) where
  | enter (job : J) (data : CategoryJob D)
  | leave (job : J)
  | change (job : J) (data : CategoryJob D)
  | add (job : J) (lists : L) (m : Malloc)
  | delete (job : J)
  | reject (cat : ℕ) (withReservation : Bool)
  | reset
  | setRebuild (newValue : Bool)
  | rebuild (lists : L) (m : Malloc)

namespace CategorySystem

/-- Nothing has been added yet, and the categories are to be built. -/
def init (jobs : J → CategoryJob D) : CategorySystem J D where
  books := ⟨[], [], true, jobs, fun _ => none⟩
  jobList := []
  text _ := ""
  reserved := []

def addresses (s : CategorySystem J D) : List ℕ := s.books.categoryList.map (·.address)

/-- A job is in the job list when its category is added and deleted, a job that leaves the list has
no category, and only an existing category is rejected. -/
def step (filtering : Bool) (build : CategoryJob D → L → String × Bool) (s : CategorySystem J D) :
    CategoryAction J D L → Option (CategorySystem J D)
  | .enter job data =>
      if job ∉ s.jobList ∧ s.books.category job = none then
        some { s with
          books := { s.books with jobs := Function.update s.books.jobs job data }
          jobList := s.jobList ++ [job] }
      else none
  | .leave job =>
      if s.books.category job = none then
        some { s with jobList := s.jobList.filter fun j => j ≠ job }
      else none
  | .change job data =>
      some { s with books := { s.books with jobs := Function.update s.books.jobs job data } }
  | .add job lists m =>
      if job ∈ s.jobList ∧ s.books.category job = none then
        some { s with
          books := sgeAddJobCategory filtering build lists m s.books job
          text := Function.update s.text job (categoryText build (s.books.jobs job) lists) }
      else none
  | .delete job =>
      if job ∈ s.jobList then
        let books := sgeDeleteJobCategory filtering s.books job
        some { s with
          books := books
          reserved := s.reserved.filter fun a => a ∈ books.categoryList.map (·.address) }
      else none
  | .reject cat withReservation =>
      if cat ∈ s.addresses then
        some { s with
          books := sgeRejectCategory s.books cat withReservation
          reserved := if withReservation then cat :: s.reserved else s.reserved }
      else none
  | .reset => some { s with books := sgeResetJobCategory s.books }
  | .setRebuild newValue => some { s with books := { s.books with rebCat := newValue } }
  | .rebuild lists m =>
      some { s with
        books := sgeRebuildJobCategory filtering build lists m s.jobList s.books
        text := if s.books.rebCat then
            fun j => if j ∈ s.jobList then categoryText build (s.books.jobs j) lists else s.text j
          else s.text
        reserved := if s.books.rebCat then [] else s.reserved }

end CategorySystem

end Jobs

end GridEngine
