import GridEngine.CullSortOrder
import Mathlib.Algebra.Order.Field.Basic
import Mathlib.Data.List.DropRight

/-!
# The ticket policies for pending tasks

`sge_calc_tickets` evaluates the policies in the order of the policy hierarchy. The policies that
the hierarchy names are dependent: each adds the tickets it assigns to `jref->tickets`, where the
policies after it find them. The functional policy and the shared override policy order the tasks
by functional categories. A task is identified by its index in the `job_ref` array, and the numbers
are those of an ordered field.
-/

namespace GridEngine.TicketPolicies
open Comparators CullSort

section References

/-- The objects that hold shares and tickets. -/
inductive Owner
  | user | project | department
deriving DecidableEq

/-- What a `sge_ref_t` refers to: the fields of the job and the task, the objects and the node of
the share tree. -/
structure Ref where
  jobNumber : ℕ
  taskNumber : ℕ
  submissionTime : ℕ
  jobshare : ℕ
  overrideTickets : ℕ
  /-- `RN_min` of the first element of `JB_pe_range`. -/
  peMin : Option ℕ
  owner : Owner → Option ℕ
  node : Option ℕ
  queued : Bool

end References

section ShareNodes
variable (K : Type)

/-- A job node, which was added to the share tree for a reference. -/
structure JobNode where
  ref : ℕ
  jobid : ℕ
  taskid : ℕ
  queued : Bool
  tickets : K
  sort : K
  shr : K

/-- The share tree with its job nodes. -/
inductive ShareNode
  | job (jobNode : JobNode K)
  | node (id jobRefCount : ℕ) (stt : K) (children : List ShareNode)

end ShareNodes

/-- What a call reads and does not change. -/
structure Config (K : Type) where
  numJobs : ℕ
  ref : ℕ → Ref
  /-- `UU_fshare`, `PR_fshare` and `US_fshare`. -/
  fshare : Owner → ℕ → ℕ
  /-- `UU_oticket`, `PR_oticket` and `US_oticket`. -/
  oticket : Owner → ℕ → ℕ
  root : Option (ShareNode K)
  totalShareTreeTickets : ℕ
  totalFunctionalTickets : ℕ
  maxFunctionalJobsToSchedule : ℕ
  shareFunctionalShares : Bool
  shareOverrideTickets : Bool
  weightOwner : Owner → K
  weightJob : K
  /-- The sums of the functional shares of the running tasks. -/
  sumOfFunctionalShares : Owner → K
  sumOfJobFunctionalShares : K

/-- What the policies change. -/
structure State (K : Type) where
  tickets : ℕ → K
  sticket : ℕ → K
  fticket : ℕ → K
  oticket : ℕ → K
  ownerFshare : Owner → ℕ → K
  fshare : ℕ → ℕ
  /-- `UU_job_cnt`, `PR_job_cnt` and `US_job_cnt`. -/
  jobCnt : Owner → ℕ → ℕ

section Categories
variable {K : Type} [LinearOrder K]

/-- A functional category with its job list, which is never empty. -/
structure Category where
  jobShare : ℕ
  owner : Owner → Option ℕ
  ownerShare : Owner → ℕ
  first : ℕ
  next : List ℕ

namespace Category

def refs (category : Category) : List ℕ := category.first :: category.next

/-- The new reference goes behind the last one that `stop` finds from the end. -/
def insert (stop : ℕ → Bool) (jref : ℕ) (category : Category) : Category :=
  let before := category.refs.rdropWhile fun ref => !stop ref
  let after := category.refs.rtakeWhile fun ref => !stop ref
  match before with
  | [] => { category with first := jref, next := category.refs }
  | first :: next => { category with first := first, next := next ++ jref :: after }

/-- Without its first reference; a category that gets empty is removed. -/
def dropFirst (category : Category) : Option Category :=
  match category.next with
  | [] => none
  | first :: next => some { category with first := first, next := next }

end Category

/-- The search from the end of the job list stops at `ref`. -/
def stopsAt (cfg : Config K) (tickets : ℕ → K) (jref ref : ℕ) : Bool :=
  if tickets jref < tickets ref then true
  else if tickets ref = tickets jref then
    let refTime := (cfg.ref ref).submissionTime
    let jrefTime := (cfg.ref jref).submissionTime
    let refJid := (cfg.ref ref).jobNumber
    let jrefJid := (cfg.ref jref).jobNumber
    if refTime < jrefTime ∨ (refTime = jrefTime ∧ refJid < jrefJid) then true
    else refJid = jrefJid ∧ (cfg.ref ref).taskNumber < (cfg.ref jref).taskNumber
  else false

/-- The object of a task, if it has shares. -/
def ownerElem (cfg : Config K) (ownerTickets : Owner → ℕ → ℕ) (jref : ℕ) (owner : Owner) :
    Option ℕ :=
  ((cfg.ref jref).owner owner).filter fun object => ownerTickets owner object ≠ 0

/-- The shares that the object of a task has. -/
def ownerShare (cfg : Config K) (ownerTickets : Owner → ℕ → ℕ) (jref : ℕ) (owner : Owner) : ℕ :=
  match (cfg.ref jref).owner owner with
  | some object => ownerTickets owner object
  | none => 0

/-- A task without any shares gets no category. -/
def hasShares (cfg : Config K) (jobTickets : Ref → ℕ) (ownerTickets : Owner → ℕ → ℕ)
    (jref : ℕ) : Bool :=
  !(jobTickets (cfg.ref jref) = 0 ∧ ownerShare cfg ownerTickets jref .user = 0 ∧
    ownerShare cfg ownerTickets jref .department = 0 ∧
    ownerShare cfg ownerTickets jref .project = 0)

/-- The category is the one of the task. -/
def Category.isOf (cfg : Config K) (jobTickets : Ref → ℕ) (ownerTickets : Owner → ℕ → ℕ)
    (jref : ℕ) (category : Category) : Bool :=
  category.jobShare = jobTickets (cfg.ref jref) ∧
    category.owner .user = ownerElem cfg ownerTickets jref .user ∧
    category.owner .department = ownerElem cfg ownerTickets jref .department ∧
    category.owner .project = ownerElem cfg ownerTickets jref .project

/-- Puts a task into the first category that is its own, or into a new one. -/
def addToCategories (cfg : Config K) (tickets : ℕ → K) (dependent : Bool) (jobTickets : Ref → ℕ)
    (ownerTickets : Owner → ℕ → ℕ) (jref : ℕ) : List Category → List Category
  | [] => [{
      jobShare := jobTickets (cfg.ref jref)
      owner := ownerElem cfg ownerTickets jref
      ownerShare := ownerShare cfg ownerTickets jref
      first := jref
      next := [] }]
  | category :: categories =>
      if category.isOf cfg jobTickets ownerTickets jref then
        category.insert (fun ref => !dependent || stopsAt cfg tickets jref ref) jref :: categories
      else category :: addToCategories cfg tickets dependent jobTickets ownerTickets jref categories

/-- `build_functional_categories`, with the number of tasks in the categories. -/
def buildFunctionalCategories (cfg : Config K) (tickets : ℕ → K) (dependent : Bool)
    (jobTickets : Ref → ℕ) (ownerTickets : Owner → ℕ → ℕ) : List Category × ℕ :=
  (List.range cfg.numJobs).foldl (fun state jref =>
    if (cfg.ref jref).queued && hasShares cfg jobTickets ownerTickets jref then
      (addToCategories cfg tickets dependent jobTickets ownerTickets jref state.1, state.2 + 1)
    else state) ([], 0)

/-- The winner is taken from its category. -/
def removeWinner (winner : ℕ) (categories : List Category) : List Category :=
  categories.filterMap fun category =>
    if category.first = winner then category.dropFirst else some category

end Categories

section Counters
variable {K : Type}

/-- `sge_set_job_cnts` for a task that is considered active. -/
def sgeSetJobCnts (cfg : Config K) (jref : ℕ) (s : State K) : State K :=
  { s with jobCnt := fun owner object =>
      if (cfg.ref jref).owner owner = some object then s.jobCnt owner object + 1
      else s.jobCnt owner object }

/-- `sge_unset_job_cnts`. -/
def sgeUnsetJobCnts (cfg : Config K) (jref : ℕ) (s : State K) : State K :=
  { s with jobCnt := fun owner object =>
      if (cfg.ref jref).owner owner = some object then s.jobCnt owner object - 1
      else s.jobCnt owner object }

end Counters

section Functional
variable {K : Type} [Field K] [LinearOrder K]

/-- The weights of the objects and of the job, and sums of functional shares of the same kinds. -/
structure Parts (K : Type) where
  owner : Owner → K
  job : K

/-- `get_functional_weighting_parameters`, when all sums are positive. -/
def getFunctionalWeightingParameters (cfg : Config K) : Parts K :=
  let kSum := cfg.weightOwner .user + cfg.weightOwner .department + cfg.weightOwner .project +
    cfg.weightJob
  if 0 < kSum then
    { owner := fun owner => cfg.weightOwner owner / kSum, job := cfg.weightJob / kSum }
  else { owner := cfg.weightOwner, job := cfg.weightJob }

/-- `calc_job_functional_tickets_pass2`. -/
def calcJobFunctionalTicketsPass2 (cfg : Config K) (jref : ℕ) (sums weight : Parts K)
    (s : State K) : State K :=
  let ownerTickets := fun owner =>
    if ((cfg.ref jref).owner owner).isSome && sums.owner owner ≠ 0 then
      s.ownerFshare owner jref * (cfg.totalFunctionalTickets : K) / sums.owner owner
    else 0
  let jobTickets :=
    if sums.job ≠ 0 then
      ((cfg.ref jref).jobshare : K) * (cfg.totalFunctionalTickets : K) / sums.job
    else 0
  let total := weight.owner .user * ownerTickets .user +
    weight.owner .department * ownerTickets .department +
    weight.owner .project * ownerTickets .project + weight.job * jobTickets
  { s with fticket := Function.update s.fticket jref total }

/-- Sets `user_fshare`, `project_fshare`, `dept_fshare` and `JAT_fshare` of a task. -/
def setFshares (jref : ℕ) (ownerFshare : Owner → K) (fshare : ℕ) (s : State K) : State K :=
  { s with
    ownerFshare := fun owner => Function.update (s.ownerFshare owner) jref (ownerFshare owner)
    fshare := Function.update s.fshare jref fshare }

/-- The functional shares of the first task of a category, were it to run next. -/
def triedFshare (cfg : Config K) (category : Category) (s : State K) (owner : Owner) : K :=
  match (cfg.ref category.first).owner owner with
  | some object =>
      if cfg.shareFunctionalShares then
        (category.ownerShare owner : K) / ((s.jobCnt owner object + 1 : ℕ) : K)
      else (category.ownerShare owner : K)
  | none => s.ownerFshare owner category.first

/-- The sums with the shares of the first task of a category. -/
def triedSums (cfg : Config K) (category : Category) (sums : Parts K) : Parts K where
  owner owner :=
    if ((cfg.ref category.first).owner owner).isSome && !cfg.shareFunctionalShares then
      sums.owner owner + (category.ownerShare owner : K)
    else sums.owner owner
  job := sums.job + (category.jobShare : K)

/-- `calc_intern_pending_job_functional_tickets`. -/
def calcInternPendingJobFunctionalTickets (cfg : Config K) (category : Category)
    (sums weight : Parts K) (s : State K) : State K :=
  calcJobFunctionalTicketsPass2 cfg category.first (triedSums cfg category sums) weight
    (setFshares category.first (triedFshare cfg category s) category.jobShare s)

/-- The functional shares of a task that is considered active. -/
def activeFshare (cfg : Config K) (jref : ℕ) (s : State K) (owner : Owner) : K :=
  match (cfg.ref jref).owner owner with
  | some object =>
      if cfg.shareFunctionalShares then
        (cfg.fshare owner object : K) / (s.jobCnt owner object : K)
      else (cfg.fshare owner object : K)
  | none => s.ownerFshare owner jref

/-- The sums with a task that is considered active; shared shares count only once. -/
def activeSums (cfg : Config K) (jref : ℕ) (s : State K) (sums : Parts K) : Parts K where
  owner owner :=
    match (cfg.ref jref).owner owner with
    | some object =>
        if !cfg.shareFunctionalShares || s.jobCnt owner object ≤ 1 then
          sums.owner owner + activeFshare cfg jref s owner
        else sums.owner owner
    | none => sums.owner owner
  job := sums.job + ((cfg.ref jref).jobshare : K)

/-- `calc_pending_job_functional_tickets` for a task that is considered active, with the sums
behind it. -/
def calcPendingJobFunctionalTickets (cfg : Config K) (jref : ℕ) (sums weight : Parts K)
    (s : State K) : State K × Parts K :=
  let sums := activeSums cfg jref s sums
  (calcJobFunctionalTicketsPass2 cfg jref sums weight
    (setFshares jref (activeFshare cfg jref s) (cfg.ref jref).jobshare s), sums)

/-- `copy_ftickets`. -/
def copyFtickets (cfg : Config K) (source dest : ℕ) (s : State K) : State K :=
  { s with
    ownerFshare := fun owner =>
      Function.update (s.ownerFshare owner) dest (s.ownerFshare owner source)
    fshare := Function.update s.fshare dest (cfg.ref source).jobshare
    fticket := Function.update s.fticket dest (s.fticket source) }

/-- The best task so far with its tickets. -/
structure Best (K : Type) where
  ref : ℕ
  tickets : K

/-- The new candidate replaces the best one. -/
def beats (cfg : Config K) (ftickets : K) (jref : ℕ) : Option (Best K) → Bool
  | none => -1 ≤ ftickets
  | some best =>
      let jid := (cfg.ref jref).jobNumber
      let submissionTime := (cfg.ref jref).submissionTime
      let saveJid := (cfg.ref best.ref).jobNumber
      let saveSubmissionTime := (cfg.ref best.ref).submissionTime
      best.tickets ≤ ftickets ∧
        (best.tickets < ftickets ∨ submissionTime < saveSubmissionTime ∨
          (submissionTime = saveSubmissionTime ∧ jid < saveJid) ∨
          (jid = saveJid ∧ (cfg.ref jref).taskNumber < (cfg.ref best.ref).taskNumber))

/-- What the rounds change: the categories, the sums and the tasks in their new order. -/
structure Rounds (K : Type) where
  state : State K
  categories : List Category
  sums : Parts K
  sortList : List ℕ

/-- The sums with 0.001 added, so that they are not zero. -/
def addThousandth (sums : Parts K) : Parts K where
  owner owner := sums.owner owner + 1 / 1000
  job := sums.job + 1 / 1000

/-- Tries the first task of a category. -/
def tryCategory (cfg : Config K) (dependent : Bool) (sums weight : Parts K)
    (acc : State K × Option (Best K)) (category : Category) : State K × Option (Best K) :=
  let jref := category.first
  let s := calcInternPendingJobFunctionalTickets cfg category (addThousandth sums) weight acc.1
  let ftickets := if dependent then s.fticket jref + s.tickets jref else s.fticket jref
  (s, if beats cfg ftickets jref acc.2 then some ⟨jref, ftickets⟩ else acc.2)

/-- The next task of the winner's category gets what the winner has. -/
def copyToNext (cfg : Config K) (categories : List Category) (winner : ℕ) (s : State K) : State K :=
  match (categories.find? fun category => category.first = winner).map Category.refs with
  | some (first :: dest :: _) => copyFtickets cfg first dest s
  | _ => s

/-- One round of the functional policy; without a winner the rounds come to an end. -/
def functionalRound (cfg : Config K) (dependent : Bool) (weight : Parts K) (rounds : Rounds K) :
    Option (Rounds K) :=
  let (s, best) := rounds.categories.foldl (tryCategory cfg dependent rounds.sums weight)
    (rounds.state, none)
  match best with
  | none => none
  | some best =>
      let (s, sums) := calcPendingJobFunctionalTickets cfg best.ref rounds.sums weight
        (sgeSetJobCnts cfg best.ref (copyToNext cfg rounds.categories best.ref s))
      some {
        state := s
        categories := removeWinner best.ref rounds.categories
        sums := sums
        sortList := rounds.sortList ++ [best.ref] }

def functionalRounds (cfg : Config K) (dependent : Bool) (weight : Parts K) :
    ℕ → Rounds K → Rounds K
  | 0, rounds => rounds
  | max + 1, rounds =>
      match functionalRound cfg dependent weight rounds with
      | none => rounds
      | some rounds => functionalRounds cfg dependent weight max rounds

/-- Adds what a policy assigned. -/
def addTickets (jref : ℕ) (assigned : K) (s : State K) : State K :=
  { s with tickets := Function.update s.tickets jref (s.tickets jref + assigned) }

/-- A task that was considered active is not any more. -/
def resetPending (cfg : Config K) (dependent : Bool) (s : State K) (jref : ℕ) : State K :=
  let s := sgeUnsetJobCnts cfg jref s
  if dependent then addTickets jref (s.fticket jref) s else s

/-- `destribute_ftickets` for a task behind the first one of its category. -/
def destribute (cfg : Config K) (dependent : Bool) (first : ℕ) (s : State K) (current : ℕ) :
    State K :=
  let s := copyFtickets cfg first current s
  if dependent then addTickets current (s.fticket current) s else s

/-- `destribute_ftickets`. -/
def destributeFtickets (cfg : Config K) (dependent : Bool) (categories : List Category)
    (s : State K) : State K :=
  categories.foldl (fun s category =>
    category.next.foldl (destribute cfg dependent category.first) s) s

/-- `num_queued_jobs`. -/
def Config.numQueuedJobs (cfg : Config K) : ℕ :=
  (List.range cfg.numJobs).countP fun jref => (cfg.ref jref).queued

/-- The functional policy. It has no result when it reads from the sort list what was not set. -/
def functionalPolicy (cfg : Config K) (dependent : Bool) (s : State K) : Option (State K) :=
  if 0 < cfg.totalFunctionalTickets ∧ 0 < cfg.numQueuedJobs then
    let (categories, pjobs) :=
      buildFunctionalCategories cfg s.tickets dependent Ref.jobshare cfg.fshare
    let max := min cfg.maxFunctionalJobsToSchedule pjobs
    if 0 < max then
      let rounds := functionalRounds cfg dependent (getFunctionalWeightingParameters cfg) max {
        state := s
        categories := categories
        sums := { owner := cfg.sumOfFunctionalShares, job := cfg.sumOfJobFunctionalShares }
        sortList := [] }
      if rounds.sortList.length < max then none
      else
        some (destributeFtickets cfg dependent rounds.categories
          (rounds.sortList.foldl (resetPending cfg dependent) rounds.state))
    else some s
  else some s

end Functional

section Override
variable {K : Type} [Field K] [LinearOrder K]

/-- The override tickets that an object gives to a task that is not counted yet. -/
def ownerOtickets (cfg : Config K) (jref : ℕ) (s : State K) (owner : Owner) : K :=
  match (cfg.ref jref).owner owner with
  | some object =>
      if 0 < cfg.oticket owner object then
        (cfg.oticket owner object : K) / ((s.jobCnt owner object + 1 : ℕ) : K)
      else 0
  | none => 0

/-- `calc_pjob_override_tickets_shared`. -/
def calcPjobOverrideTicketsShared (cfg : Config K) (jref : ℕ) (s : State K) : State K :=
  let jobOverrideTickets := ownerOtickets cfg jref s .user + ownerOtickets cfg jref s .project +
    ownerOtickets cfg jref s .department + ((cfg.ref jref).overrideTickets : K)
  { s with oticket := Function.update s.oticket jref jobOverrideTickets }

/-- `calc_job_override_tickets`, when the tickets are not shared. -/
def calcJobOverrideTickets (cfg : Config K) (jref : ℕ) (s : State K) : State K :=
  let jobOverrideTickets :=
    (ownerShare cfg cfg.oticket jref .user : K) + (ownerShare cfg cfg.oticket jref .project : K) +
      (ownerShare cfg cfg.oticket jref .department : K) + ((cfg.ref jref).overrideTickets : K)
  { s with oticket := Function.update s.oticket jref jobOverrideTickets }

/-- The new candidate replaces the best one of the override policy. -/
def beatsOverride (cfg : Config K) (otickets : K) (jref : ℕ) : Option (Best K) → Bool
  | none => true
  | some best =>
      best.tickets < otickets ||
        (best.tickets = otickets &&
          ((cfg.ref jref).jobNumber < (cfg.ref best.ref).jobNumber ||
            ((cfg.ref best.ref).jobNumber = (cfg.ref jref).jobNumber &&
              (cfg.ref jref).taskNumber < (cfg.ref best.ref).taskNumber)))

/-- What the rounds of the override policy change. -/
structure OverrideRounds (K : Type) where
  state : State K
  categories : List Category
  sortList : List ℕ

/-- Tries the first task of a category. -/
def tryOverride (cfg : Config K) (acc : State K × Option (Best K)) (category : Category) :
    State K × Option (Best K) :=
  let jref := category.first
  let s := calcPjobOverrideTicketsShared cfg jref acc.1
  let otickets := s.oticket jref
  (s, if beatsOverride cfg otickets jref acc.2 then some ⟨jref, otickets⟩ else acc.2)

/-- One round of the shared override policy, which adds the tickets of the winner in any case. -/
def overrideRound (cfg : Config K) (rounds : OverrideRounds K) : Option (OverrideRounds K) :=
  let (s, best) := rounds.categories.foldl (tryOverride cfg) (rounds.state, none)
  match best with
  | none => none
  | some best =>
      some {
        state := addTickets best.ref best.tickets (sgeSetJobCnts cfg best.ref s)
        categories := removeWinner best.ref rounds.categories
        sortList := rounds.sortList ++ [best.ref] }

def overrideRounds (cfg : Config K) : ℕ → OverrideRounds K → OverrideRounds K
  | 0, rounds => rounds
  | max + 1, rounds =>
      match overrideRound cfg rounds with
      | none => rounds
      | some rounds => overrideRounds cfg max rounds

/-- `calculate_pending_shared_override_tickets`. It has no result when it reads from the sort list
what was not set. -/
def calculatePendingSharedOverrideTickets (cfg : Config K) (dependent : Bool) (s : State K) :
    Option (State K) :=
  let (categories, max) :=
    buildFunctionalCategories cfg s.tickets dependent Ref.overrideTickets cfg.oticket
  let rounds := overrideRounds cfg max { state := s, categories := categories, sortList := [] }
  if rounds.sortList.length < max then none
  else some (rounds.sortList.foldl (fun s jref => sgeUnsetJobCnts cfg jref s) rounds.state)

/-- The override policy for a task, when the tickets are not shared. -/
def overrideTask (cfg : Config K) (dependent : Bool) (s : State K) (jref : ℕ) : State K :=
  if (cfg.ref jref).queued then
    let s := calcJobOverrideTickets cfg jref s
    if dependent then addTickets jref (s.oticket jref) s else s
  else s

/-- The override policy. -/
def overridePolicy (cfg : Config K) (dependent : Bool) (s : State K) : Option (State K) :=
  if cfg.shareOverrideTickets then calculatePendingSharedOverrideTickets cfg dependent s
  else some ((List.range cfg.numJobs).foldl (overrideTask cfg dependent) s)

end Override

section ShareTree
variable {K : Type}

mutual

/-- Adds a job node below the node with an id. -/
def addJobNode (id : ℕ) (jobNode : JobNode K) : ShareNode K → ShareNode K
  | .job other => .job other
  | .node id' jobRefCount stt children =>
      .node id' jobRefCount stt (addJobNodes id jobNode children ++
        if id' = id then [.job jobNode] else [])

def addJobNodes (id : ℕ) (jobNode : JobNode K) : List (ShareNode K) → List (ShareNode K)
  | [] => []
  | child :: children => addJobNode id jobNode child :: addJobNodes id jobNode children

end

mutual

/-- Disposes of the uppermost levels without jobs. -/
def pruneRoot : ShareNode K → ShareNode K
  | .job jobNode => .job jobNode
  | .node id jobRefCount stt children =>
      match pruneChildren 0 none children with
      | (1, some tempRoot) => tempRoot
      | _ => .node id jobRefCount stt children

/-- The loop over the children, with `active_nodes` and the pruned `temp_root`. -/
def pruneChildren (activeNodes : ℕ) (tempRoot : Option (ShareNode K)) :
    List (ShareNode K) → ℕ × Option (ShareNode K)
  | [] => (activeNodes, tempRoot)
  | .job _ :: _ => (activeNodes + 1, tempRoot)
  | .node id jobRefCount stt children :: rest =>
      if 0 < jobRefCount then
        if 1 < activeNodes + 1 then
          (activeNodes + 1, some (pruneRoot (.node id jobRefCount stt children)))
        else
          pruneChildren (activeNodes + 1)
            (some (pruneRoot (.node id jobRefCount stt children))) rest
      else if 1 < activeNodes then (activeNodes, tempRoot)
      else pruneChildren activeNodes tempRoot rest

end

/-- The sort keys of the job nodes. -/
inductive JobNodeField
  | queued | sort | jobid | taskid

variable [LinearOrder K]

def compareJobNodes : JobNodeField → JobNode K → JobNode K → ℤ
  | .queued, a, b => numbercmp a.queued.toNat b.queued.toNat
  | .sort, a, b => numbercmp a.sort b.sort
  | .jobid, a, b => numbercmp a.jobid b.jobid
  | .taskid, a, b => numbercmp a.taskid b.taskid

def jobNodeFormat : List Char :=
  ['%', 'I', '+', ' ', '%', 'I', '-', ' ', '%', 'I', '+', ' ', '%', 'I', '+']

variable [Field K]

/-- The job nodes get the entitlement of a node, diluted by the slots of the jobs before them. -/
def diluteJobNodes (cfg : Config K) (nodeStt : K) : K → List (JobNode K) → List (JobNode K)
  | _, [] => []
  | diluteFactor, jobNode :: jobNodes =>
      let jobNode := { jobNode with
        shr := nodeStt / diluteFactor
        sort := jobNode.tickets + nodeStt / diluteFactor * (cfg.totalShareTreeTickets : K) }
      let dilution := match (cfg.ref jobNode.ref).peMin with
        | some min => max 1 min
        | none => 1
      jobNode :: diluteJobNodes cfg nodeStt (diluteFactor + (dilution : K)) jobNodes

mutual

/-- `sge_sort_job_nodes` without the pruning. -/
def sortJobNodes (cfg : Config K) (qsort : Qsort (JobNode K)) (isRoot : Bool) :
    ShareNode K → List (JobNode K)
  | .job _ => []
  | .node _ _ stt children =>
      let jobNodeList := collectJobNodes cfg qsort children
      let jobNodes := children.countP fun child => match child with
        | .job _ => true
        | .node _ _ _ _ => false
      if !isRoot || 0 < jobNodes then
        let jobNodeList :=
          if 1 < jobNodeList.length then
            lPSortList qsort compareJobNodes jobNodeFormat [.queued, .sort, .jobid, .taskid]
              jobNodeList
          else jobNodeList
        diluteJobNodes cfg stt 1 jobNodeList
      else jobNodeList

/-- The job nodes below the children in a single list. -/
def collectJobNodes (cfg : Config K) (qsort : Qsort (JobNode K)) :
    List (ShareNode K) → List (JobNode K)
  | [] => []
  | .job jobNode :: rest => jobNode :: collectJobNodes cfg qsort rest
  | .node id jobRefCount stt children :: rest =>
      if 0 < jobRefCount then
        sortJobNodes cfg qsort false (.node id jobRefCount stt children) ++
          collectJobNodes cfg qsort rest
      else collectJobNodes cfg qsort rest

end

/-- `sge_sort_job_nodes` for the root. -/
def sgeSortJobNodes (cfg : Config K) (qsort : Qsort (JobNode K)) (root : ShareNode K) :
    List (JobNode K) :=
  sortJobNodes cfg qsort true (pruneRoot root)

/-- Adds the job node of a task to the share tree. -/
def addTaskNode (cfg : Config K) (dependent : Bool) (s : State K) (root : ShareNode K)
    (jref : ℕ) : ShareNode K :=
  let ref := cfg.ref jref
  match ref.node with
  | none => root
  | some id =>
      addJobNode id {
        ref := jref
        jobid := ref.jobNumber
        taskid := ref.taskNumber
        queued := ref.queued
        tickets := if dependent then s.tickets jref else 0
        sort :=
          if dependent then s.tickets jref + 1 / 100 * (ref.jobshare : K) else (ref.jobshare : K)
        shr := 0 } root

/-- Sets the share tree tickets of a pending task. -/
def setSticket (cfg : Config K) (dependent : Bool) (s : State K) (jobNode : JobNode K) :
    State K :=
  if (cfg.ref jobNode.ref).queued then
    let sticket := jobNode.shr * (cfg.totalShareTreeTickets : K)
    let s := { s with sticket := Function.update s.sticket jobNode.ref sticket }
    if dependent then addTickets jobNode.ref sticket s else s
  else s

/-- The share tree policy. -/
def shareTreePolicy (cfg : Config K) (qsort : Qsort (JobNode K)) (dependent : Bool) (s : State K) :
    State K :=
  match cfg.root with
  | none => s
  | some root =>
      if 0 < cfg.totalShareTreeTickets then
        let root := (List.range cfg.numJobs).foldl (addTaskNode cfg dependent s) root
        (sgeSortJobNodes cfg qsort root).foldl (setSticket cfg dependent) s
      else s

end ShareTree

section Hierarchy

inductive Policy
  | override | functional | shareTree
deriving DecidableEq

/-- `policy_hierarchy_char2enum`; an invalid character has no policy. -/
def policyHierarchyChar2enum : Char → Option Policy
  | 'O' => some .override
  | 'F' => some .functional
  | 'S' => some .shareTree
  | _ => none

/-- The value names no policy. -/
def namesNone (value : List Char) : Bool :=
  value = [] || value.map Char.toUpper = ['N', 'O', 'N', 'E']

/-- `policy_hierarchy_verify_value` finds nothing wrong. -/
def policyHierarchyVerifyValue (value : List Char) : Bool :=
  namesNone value ||
    (value.all (fun c => (policyHierarchyChar2enum c).isSome) && decide value.Nodup)

/-- `sconf_ph_fill_array` for a verified value: the policies with their `dependent` flags. -/
def sconfPhFillArray (value : List Char) : List (Policy × Bool) :=
  let contained := if namesNone value then [] else value.filterMap policyHierarchyChar2enum
  contained.map (·, true) ++
    ([.override, .functional, .shareTree].filter (· ∉ contained)).map (·, false)

variable {K : Type} [Field K] [LinearOrder K]

/-- One round of the policy loop. -/
def evaluatePolicy (cfg : Config K) (qsort : Qsort (JobNode K)) (s : State K)
    (entry : Policy × Bool) : Option (State K) :=
  match entry.1 with
  | .shareTree => some (shareTreePolicy cfg qsort entry.2 s)
  | .functional => functionalPolicy cfg entry.2 s
  | .override => overridePolicy cfg entry.2 s

/-- The policy loop over some entries of the hierarchy. -/
def evaluatePolicies (cfg : Config K) (qsort : Qsort (JobNode K)) (entries : List (Policy × Bool))
    (s : State K) : Option (State K) :=
  entries.foldlM (evaluatePolicy cfg qsort) s

/-- The tickets that a policy has assigned to a task. -/
def assigned (s : State K) (jref : ℕ) : Policy → K
  | .override => s.oticket jref
  | .functional => s.fticket jref
  | .shareTree => s.sticket jref

end Hierarchy

end GridEngine.TicketPolicies
