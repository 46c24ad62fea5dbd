import GridEngine.RangeParse
import GridEngine.RankedGraph
import GridEngine.TaskDepend

/-!
# Job dependencies

A job waits for the jobs in its predecessor lists, of `-hold_jid` and of `-hold_jid_ad`. Each of
them has the waiting jobs in its successor lists, and when it ends it is taken out of their
predecessor lists. A request that would close a cycle is refused, as long as no job waits by both
options.
-/

namespace GridEngine
open Machine RankedGraph Relation

section Model

/-- The options that make a job wait, `-hold_jid` and `-hold_jid_ad`. -/
inductive HoldKind
  | jid
  | ad
deriving DecidableEq

/-- The part of a `JB_Type` element that is read for the dependencies. `JAT_task_list` is given by
task number, with the `PET_id`s and the `PET_status`. -/
structure HoldJob where
  owner : String
  jobName : String
  isArray : Bool
  job : Job
  jatStatus : ℕ → ℕ
  jatTaskList : ℕ → List (String × ℕ)
  requestList : HoldKind → List String

/-- The job as `sge_task_depend_is_same_range` reads it. -/
def HoldJob.dependJob (job : HoldJob) (n : ℕ) : DependJob :=
  ⟨n, job.isArray, job.job, job.jatStatus, fun id => (job.jatTaskList id).map Prod.fst,
    job.requestList .ad, [], []⟩

/-- Whether `job_suc_pre_doit` takes a predecessor for exited. -/
def HoldJob.exited (job : HoldJob) : Bool :=
  [IdList.jaNHIds, .jaUHIds, .jaOHIds, .jaAHIds, .jaSHIds].all
      (fun ids => (job.job.idLists ids).isNone) &&
    job.job.jaTasks.all fun jaTask => job.jatStatus jaTask.taskNumber == jFinished &&
      (job.jatTaskList jaTask.taskNumber).all fun task =>
        task.1 == "past_usage" || task.2 == jFinished

/-- The master job list, as `job_list_locate` reads it, and beside it the predecessor lists and the
successor lists of its jobs. A job that is not in the list has none. -/
structure HoldJobs where
  job : ℕ → Option HoldJob
  predecessorList : HoldKind → ℕ → List ℕ
  successorList : HoldKind → ℕ → List ℕ

namespace HoldJobs

section Requests
variable (stringBaseCmp : String → String → Bool) (ids : List ℕ) (jobs : HoldJobs) (n : ℕ)

/-- The loop over the requests of the job `n` in `job_verify_predecessors` and
`job_verify_predecessors_ad`. `ids` are the job numbers in the order of the list, and
`stringBaseCmp` tells whether `string_base_cmp` finds that a name matches. -/
def predecessorsId (jep : HoldJob) : List String → Option (List ℕ)
  | [] => some []
  | preIdent :: rest =>
      if preIdent.toList.head?.any Char.isDigit then
        let number := toULong32 (strtol preIdent.toList).1
        if '.' ∈ preIdent.toList ∨ number = n then none
        else (predecessorsId jep rest).map (number :: ·)
      else
        let userJobs := ids.filter fun id => id ≠ n && (jobs.job id).any fun userJob =>
          userJob.owner = jep.owner && stringBaseCmp preIdent userJob.jobName
        (predecessorsId jep rest).map (userJobs ++ ·)

/-- `job_verify_predecessors`, with the list that it stores. -/
def jobVerifyPredecessors (jep : HoldJob) : Option (List ℕ) :=
  predecessorsId stringBaseCmp ids jobs n jep (jep.requestList .jid)

/-- `job_verify_predecessors_ad`, with the list that it stores. -/
def jobVerifyPredecessorsAd (jep : HoldJob) : Option (List ℕ) :=
  if jep.requestList .ad ≠ [] ∧ jep.isArray = false then none
  else do
    let predecessorsId ← predecessorsId stringBaseCmp ids jobs n jep (jep.requestList .ad)
    if predecessorsId.any fun pre => (jobs.job pre).any fun predJob => !predJob.isArray ||
        !sgeTaskDependIsSameRange (predJob.dependJob pre) (jep.dependJob n) then none
    else some predecessorsId

def verify (jep : HoldJob) : HoldKind → Option (List ℕ)
  | .jid => jobVerifyPredecessors stringBaseCmp ids jobs n jep
  | .ad => jobVerifyPredecessorsAd stringBaseCmp ids jobs n jep

/-- `job_suc_pre_doit` for the job `n`: the predecessors that are left, and the successor lists.
`lDelSubUlong` refuses the number 0. -/
def jobSucPreDoit : List ℕ → (ℕ → List ℕ) → List ℕ × (ℕ → List ℕ)
  | [], sucs => ([], sucs)
  | pre :: rest, sucs =>
      if (jobs.job pre).any fun parentJep => !parentJep.exited then
        let r := jobSucPreDoit rest (Function.update sucs pre (sucs pre ++ [n]))
        (pre :: r.1, r.2)
      else
        let r := jobSucPreDoit rest sucs
        (if pre = 0 then pre :: r.1 else r.1, r.2)

/-- The part of `sge_job_verify_adjust` about the dependencies: `job_suc_pre` and
`job_suc_pre_ad`, when the requests are right. -/
def sgeJobVerifyAdjust (jep : HoldJob) : Option (HoldKind → List ℕ × (ℕ → List ℕ)) := do
  let jid ← verify stringBaseCmp ids jobs n jep .jid
  let ad ← verify stringBaseCmp ids jobs n jep .ad
  return fun kind => jobs.jobSucPreDoit n (match kind with | .jid => jid | .ad => ad)
    (jobs.successorList kind)

/-- A loop of `contains_dependency_cycles`. It starts with what the loop before it found. -/
def cycleLoop (check : ℕ → Option Bool) : Bool → List ℕ → Option Bool
  | isCycle, [] => some isCycle
  | _, pre :: rest => do
      if ← check pre then return true else cycleLoop check false rest

/-- `contains_dependency_cycles`, for a job with the given predecessors. It aborts when one of them
is not in the list: `none`. -/
def containsDependencyCycles : ℕ → (HoldKind → List ℕ) → Option Bool
  | 0, _ => none
  | fuel + 1, newPres => do
      let check := fun pre =>
        if pre = n then some true
        else (jobs.job pre).bind fun _ =>
          containsDependencyCycles fuel fun kind => jobs.predecessorList kind pre
      let isCycle ← cycleLoop check false (newPres .jid)
      cycleLoop check isCycle (newPres .ad)

/-- Takes the number `n` once out of the list of each of the given jobs. -/
def eraseAll (lists : ℕ → List ℕ) (ids : List ℕ) : ℕ → List ℕ :=
  ids.foldl (fun lists id => Function.update lists id ((lists id).erase n)) lists

/-- The part of `mod_job_attributes` about the predecessors of one kind, with the new list. -/
def modJobAttributes (fuel : ℕ) (newJob : HoldJob) (kind : HoldKind) : Option (List ℕ) := do
  let pres ← verify stringBaseCmp ids jobs n newJob kind
  let newPreList := pres.filter fun pre => (jobs.job pre).isSome
  if newPreList = [] then some []
  else if ← jobs.containsDependencyCycles n fuel
      (Function.update (fun kind => jobs.predecessorList kind n) kind newPreList) then none
  else some newPreList

/-- The part of `sge_gdi_mod_job` that puts the new job into the list. -/
def replaceJob (kind : HoldKind) (newJob : HoldJob) (newPreList : List ℕ) : HoldJobs :=
  let sucs := eraseAll n (jobs.successorList kind) (jobs.predecessorList kind n)
  let jobs := { jobs with job := Function.update jobs.job n (some newJob) }
  let r := jobs.jobSucPreDoit n newPreList sucs
  ⟨jobs.job,
    Function.update jobs.predecessorList kind
      (Function.update (jobs.predecessorList kind) n r.1),
    Function.update jobs.successorList kind r.2⟩

/-- `sge_gdi_mod_job` with a request for the predecessors of one kind. -/
def sgeGdiModJob (fuel : ℕ) (kind : HoldKind) (request : List String) : Option HoldJobs := do
  let jobep ← jobs.job n
  let newJob := { jobep with requestList := Function.update jobep.requestList kind request }
  let newPreList ← modJobAttributes stringBaseCmp ids jobs n fuel newJob kind
  return jobs.replaceJob n kind newJob newPreList

/-- `release_successor_jobs`, and the part of `release_successor_jobs_ad` about the lists. -/
def releaseSuccessorJobs : HoldJobs :=
  if n = 0 then jobs
  else
    { jobs with
      predecessorList := fun kind =>
        eraseAll n (jobs.predecessorList kind) (jobs.successorList kind n) }

def added (jep : HoldJob) (r : HoldKind → List ℕ × (ℕ → List ℕ)) : HoldJobs where
  job := Function.update jobs.job n (some jep)
  predecessorList kind := Function.update (jobs.predecessorList kind) n (r kind).1
  successorList kind := (r kind).2

def removed : HoldJobs where
  job := Function.update jobs.job n none
  predecessorList kind := Function.update (jobs.predecessorList kind) n []
  successorList kind := Function.update (jobs.successorList kind) n []

end Requests

end HoldJobs

/-- What happens to the master job list. A submitted job can be refused after it was verified, and
a job can stay for some time after it released its successors. -/
inductive HoldEvent
  | submitted (n : ℕ) (jep : HoldJob) (ids : List ℕ) (refused : Bool)
  | modified (n : ℕ) (kind : HoldKind) (request : List String) (ids : List ℕ)
  | released (n : ℕ)
  | buried (n : ℕ)
  | changed (f : ℕ → HoldJob → HoldJob)

def HoldEvent.Step (stringBaseCmp : String → String → Bool) (jobs : HoldJobs) (e : HoldEvent)
    (jobs' : HoldJobs) : Prop :=
  match e with
  | submitted n jep ids refused => n ≠ 0 ∧ jobs.job n = none ∧
      ∃ r, jobs.sgeJobVerifyAdjust stringBaseCmp ids n jep = some r ∧
        jobs' = if refused then { jobs with successorList := fun kind => (r kind).2 }
          else jobs.added n jep r
  | modified n kind request ids =>
      ∃ fuel, jobs.sgeGdiModJob stringBaseCmp ids n fuel kind request = some jobs'
  | released n => jobs' = jobs.releaseSuccessorJobs n
  | buried n => jobs' = (jobs.releaseSuccessorJobs n).removed n
  | changed f => jobs' = { jobs with job := fun n => (jobs.job n).map (f n) }

end Model

namespace HoldJobs
variable {stringBaseCmp : String → String → Bool} {jobs : HoldJobs} {kind : HoldKind}
  {n m pre fuel : ℕ} {ids : List ℕ}

section Lists

/-- What `job_suc_pre_doit` leaves of the predecessors is chained. -/
structure Chained (jobs : HoldJobs) (n : ℕ) (pres : List ℕ) (sucs : ℕ → List ℕ)
    (r : List ℕ × (ℕ → List ℕ)) : Prop where
  subset : r.1 ⊆ pres
  located : ∀ pre ∈ r.1, pre = 0 ∨ (jobs.job pre).isSome
  count_le : ∀ k m, (sucs k).count m ≤ (r.2 k).count m
  count_add_le : ∀ pre, pre ≠ 0 → r.1.count pre + (sucs pre).count n ≤ (r.2 pre).count n

theorem jobSucPreDoit_chained : ∀ (pres : List ℕ) (sucs : ℕ → List ℕ),
    Chained jobs n pres sucs (jobs.jobSucPreDoit n pres sucs)
  | [], sucs => ⟨List.Subset.refl _, by simp [jobSucPreDoit], fun _ _ => le_rfl,
      by simp [jobSucPreDoit]⟩
  | pre :: rest, sucs => by
      rw [jobSucPreDoit]
      split_ifs with hstays hzero
      · have hpre : (jobs.job pre).isSome := Option.isSome_of_any hstays
        obtain ⟨hsub, hlocated, hle, hadd⟩ :=
          jobSucPreDoit_chained rest (Function.update sucs pre (sucs pre ++ [n]))
        have hgrows : ∀ k m, (sucs k).count m ≤
            (Function.update sucs pre (sucs pre ++ [n]) k).count m := by
          intro k m
          rw [Function.update_apply]
          split_ifs with hk
          · rw [hk, List.count_append]
            exact Nat.le_add_right _ _
          · exact le_rfl
        refine ⟨List.cons_subset_cons pre hsub, List.forall_mem_cons.mpr ⟨.inr hpre, hlocated⟩,
          fun k m => (hgrows k m).trans (hle k m), fun m hm => ?_⟩
        have hadd := hadd m hm
        have hgrow := hgrows m n
        dsimp only
        by_cases heq : pre = m
        · subst heq
          rw [Function.update_self, List.count_append, List.count_singleton_self] at hadd
          rw [List.count_cons_self]
          omega
        · rw [List.count_cons_of_ne heq]
          omega
      · obtain ⟨hsub, hlocated, hle, hadd⟩ := jobSucPreDoit_chained rest sucs
        refine ⟨List.cons_subset_cons pre hsub,
          List.forall_mem_cons.mpr ⟨.inl hzero, hlocated⟩, hle, fun m hm => ?_⟩
        dsimp only
        rw [hzero, List.count_cons_of_ne (Ne.symm hm)]
        exact hadd m hm
      · obtain ⟨hsub, hlocated, hle, hadd⟩ := jobSucPreDoit_chained rest sucs
        exact ⟨List.subset_cons_of_subset pre hsub, hlocated, hle, hadd⟩

theorem eraseAll_spec (ids : List ℕ) (lists : ℕ → List ℕ) (k : ℕ) :
    (eraseAll n lists ids k).Sublist (lists k) ∧ ∀ m, (eraseAll n lists ids k).count m =
      (lists k).count m - if m = n then ids.count k else 0 := by
  induction ids generalizing lists with
  | nil => exact ⟨.refl _, by simp [eraseAll]⟩
  | cons id rest ih =>
      obtain ⟨hsub, hcount⟩ := ih (Function.update lists id ((lists id).erase n))
      by_cases hk : k = id
      · subst hk
        rw [Function.update_self] at hsub hcount
        refine ⟨hsub.trans List.erase_sublist, fun m => (hcount m).trans ?_⟩
        rw [List.count_erase, List.count_cons_self]
        by_cases hm : m = n
        · simp only [hm, BEq.rfl, if_true]
          omega
        · simp [hm, Ne.symm hm]
      · rw [Function.update_of_ne hk] at hsub hcount
        exact ⟨hsub, fun m => (hcount m).trans (by rw [List.count_cons_of_ne (Ne.symm hk)])⟩

end Lists

section Cycles

/-- The jobs that the job `n` waits for. -/
def deps (jobs : HoldJobs) (n : ℕ) : List ℕ :=
  jobs.predecessorList .jid n ++ jobs.predecessorList .ad n

theorem exists_kind {P : HoldKind → Prop} : (∃ kind, P kind) ↔ P .jid ∨ P .ad :=
  ⟨by rintro ⟨_ | _, h⟩; exacts [.inl h, .inr h], Or.rec (⟨_, ·⟩) (⟨_, ·⟩)⟩

theorem mem_deps : m ∈ jobs.deps n ↔ ∃ kind, m ∈ jobs.predecessorList kind n := by
  rw [deps, List.mem_append, exists_kind]

/-- No job waits by both options, and none for the number 0. -/
structure Separate (jobs : HoldJobs) : Prop where
  single : ∀ n, ∃ kind, jobs.predecessorList kind n = []
  ne_zero : ∀ kind n, 0 ∉ jobs.predecessorList kind n

def SeparateStep (stringBaseCmp : String → String → Bool) (jobs : HoldJobs) (e : HoldEvent)
    (jobs' : HoldJobs) : Prop :=
  e.Step stringBaseCmp jobs jobs' ∧ jobs'.Separate

/-- The jobs that are waited for are in the list, with the waiting ones as successors, and there is
no cycle. -/
structure Plain (jobs : HoldJobs) : Prop where
  separate : jobs.Separate
  located : ∀ kind n, ∀ pre ∈ jobs.predecessorList kind n, (jobs.job pre).isSome
  linked : ∀ kind n pre,
    (jobs.predecessorList kind n).count pre ≤ (jobs.successorList kind pre).count n
  ranked : Ranked jobs.deps

theorem cycleLoop_iff {check : ℕ → Option Bool} {P : ℕ → Prop} {list : List ℕ} {init b : Bool}
    (hcheck : ∀ pre b, check pre = some b → (b = true ↔ P pre))
    (h : cycleLoop check init list = some b) :
    b = true ↔ list = [] ∧ init = true ∨ ∃ pre ∈ list, P pre := by
  induction list generalizing init with
  | nil =>
      cases h
      simp
  | cons pre rest ih =>
      obtain ⟨isCycle, hpre, hrest⟩ := Option.bind_eq_some_iff.mp h
      have hiff := hcheck pre isCycle hpre
      cases isCycle with
      | true =>
          cases hrest
          simp [hiff.mp rfl]
      | false =>
          have hnot : ¬ P pre := fun hP => Bool.false_ne_true (hiff.mpr hP)
          rw [ih hrest]
          simp [hnot]

theorem cycleLoop_isSome {check : ℕ → Option Bool} {list : List ℕ} {init : Bool}
    (hcheck : ∀ pre ∈ list, (check pre).isSome) : (cycleLoop check init list).isSome := by
  induction list generalizing init with
  | nil => rfl
  | cons pre rest ih =>
      obtain ⟨isCycle, hpre⟩ := Option.isSome_iff_exists.mp (hcheck pre List.mem_cons_self)
      rw [cycleLoop, hpre, Option.bind_eq_bind, Option.bind_some]
      cases isCycle with
      | true => rfl
      | false => exact ih fun m hm => hcheck m (List.mem_cons_of_mem pre hm)

/-- The predecessors that decide on a cycle. The second loop forgets what the first one found. -/
def decisive (newPres : HoldKind → List ℕ) : List ℕ :=
  if newPres .ad = [] then newPres .jid else newPres .ad

theorem mem_decisive {newPres : HoldKind → List ℕ} (hsingle : ∃ kind, newPres kind = []) :
    m ∈ decisive newPres ↔ ∃ kind, m ∈ newPres kind := by
  rw [decisive, exists_kind]
  rcases exists_kind.mp hsingle with hnil | hnil
  · split_ifs <;> simp_all
  · simp [hnil]

theorem containsDependencyCycles_iff (h : jobs.Plain) {newPres : HoldKind → List ℕ} {b : Bool}
    (hcheck : jobs.containsDependencyCycles n fuel newPres = some b) :
    b = true ↔ ∃ pre ∈ decisive newPres, ReflTransGen (WaitsFor jobs.deps) pre n := by
  induction fuel generalizing newPres b with
  | zero => cases hcheck
  | succ fuel ih =>
      have hpres : ∀ pre b, (if pre = n then some true else (jobs.job pre).bind fun _ =>
          jobs.containsDependencyCycles n fuel fun kind => jobs.predecessorList kind pre) =
            some b → (b = true ↔ ReflTransGen (WaitsFor jobs.deps) pre n) := by
        intro pre b hb
        split_ifs at hb with heq
        · cases hb
          simp [heq, ReflTransGen.refl]
        · obtain ⟨job, hjob, hb⟩ := Option.bind_eq_some_iff.mp hb
          rw [ih hb, ReflTransGen.cases_head_iff, or_iff_right heq]
          simp only [mem_decisive (h.separate.single pre), WaitsFor, mem_deps]
      obtain ⟨isCycle, hjid, had⟩ := Option.bind_eq_some_iff.mp hcheck
      rw [cycleLoop_iff hpres had, cycleLoop_iff hpres hjid, decisive]
      by_cases hnil : newPres .ad = []
      · simp [hnil]
      · simp [hnil]

/-- The recursion of `contains_dependency_cycles` goes down the ranks. -/
theorem containsDependencyCycles_isSome (h : jobs.Plain) {rank : ℕ → ℕ}
    (hrank : ∀ k, ∀ m ∈ jobs.deps k, rank m < rank k) {newPres : HoldKind → List ℕ}
    (hpres : ∀ kind, ∀ pre ∈ newPres kind, (jobs.job pre).isSome ∧ rank pre < fuel) :
    (jobs.containsDependencyCycles n (fuel + 1) newPres).isSome := by
  induction fuel generalizing newPres with
  | zero =>
      have hnil : ∀ kind, newPres kind = [] := fun kind => List.eq_nil_iff_forall_not_mem.mpr
        fun pre hpre => (hpres kind pre hpre).2.not_ge (Nat.zero_le _)
      rw [containsDependencyCycles, hnil, hnil]
      rfl
  | succ fuel ih =>
      have hcheck : ∀ kind, ∀ pre ∈ newPres kind, (if pre = n then some true
          else (jobs.job pre).bind fun _ => jobs.containsDependencyCycles n (fuel + 1)
            fun kind => jobs.predecessorList kind pre).isSome := by
        intro kind pre hpre
        obtain ⟨hsome, hlt⟩ := hpres kind pre hpre
        obtain ⟨job, hjob⟩ := Option.isSome_iff_exists.mp hsome
        split_ifs
        · rfl
        · rw [hjob, Option.bind_some]
          exact ih fun kind' m hm => ⟨h.located kind' pre m hm,
            (hrank pre m (mem_deps.mpr ⟨kind', hm⟩)).trans_le (Nat.lt_succ_iff.mp hlt)⟩
      obtain ⟨isCycle, hjid⟩ := Option.isSome_iff_exists.mp
        (@cycleLoop_isSome _ _ false (hcheck .jid))
      rw [containsDependencyCycles, Option.bind_eq_bind, hjid]
      exact cycleLoop_isSome (hcheck .ad)

end Cycles

section Steps
variable {jobs' : HoldJobs}

theorem Plain.of_sublist (h : jobs.Plain)
    (hsub : ∀ kind k, (jobs'.predecessorList kind k).Sublist (jobs.predecessorList kind k))
    (hlocated : ∀ kind n, ∀ pre ∈ jobs'.predecessorList kind n, (jobs'.job pre).isSome)
    (hlinked : ∀ kind n pre,
      (jobs'.predecessorList kind n).count pre ≤ (jobs'.successorList kind pre).count n) :
    jobs'.Plain where
  separate.single k := (h.separate.single k).imp fun kind (hnil : _ = []) =>
    List.sublist_nil.mp (hnil ▸ hsub kind k)
  separate.ne_zero kind k h0 := h.separate.ne_zero kind k ((hsub kind k).subset h0)
  located := hlocated
  linked := hlinked
  ranked := h.ranked.mono fun k => ((hsub .jid k).append (hsub .ad k)).subset

theorem Plain.releaseSuccessorJobs (h : jobs.Plain) (n : ℕ) :
    (jobs.releaseSuccessorJobs n).Plain ∧
      ∀ kind k, n ∉ (jobs.releaseSuccessorJobs n).predecessorList kind k := by
  rw [HoldJobs.releaseSuccessorJobs]
  split_ifs with hn
  · exact ⟨h, hn ▸ h.separate.ne_zero⟩
  · have hspec := fun kind k =>
      @eraseAll_spec n (jobs.successorList kind n) (jobs.predecessorList kind) k
    refine ⟨h.of_sublist (fun kind k => (hspec kind k).1)
      (fun kind k pre hpre => h.located kind k pre ((hspec kind k).1.subset hpre))
      fun kind k pre => ((hspec kind k).1.count_le pre).trans (h.linked kind k pre), ?_⟩
    intro kind k
    rw [← List.count_eq_zero, (hspec kind k).2, if_pos rfl]
    exact Nat.sub_eq_zero_of_le (h.linked kind k n)

theorem Plain.removed (h : jobs.Plain) (hgone : ∀ kind k, n ∉ jobs.predecessorList kind k) :
    (jobs.removed n).Plain := by
  have hsub : ∀ kind k, ((jobs.removed n).predecessorList kind k).Sublist
      (jobs.predecessorList kind k) := by
    intro kind k
    simp only [HoldJobs.removed, Function.update_apply]
    split_ifs
    · exact List.nil_sublist _
    · exact .refl _
  refine h.of_sublist hsub (fun kind k pre hpre => ?_) fun kind k pre => ?_
  · have hmem := (hsub kind k).subset hpre
    have hne : pre ≠ n := ne_of_mem_of_not_mem hmem (hgone kind k)
    simp only [HoldJobs.removed, Function.update_of_ne hne]
    exact h.located kind k pre hmem
  · by_cases hpre : pre = n
    · rw [hpre, List.count_eq_zero.mpr fun hmem => hgone kind k ((hsub kind k).subset hmem)]
      exact Nat.zero_le _
    · simp only [HoldJobs.removed, Function.update_of_ne hpre]
      exact ((hsub kind k).count_le pre).trans (h.linked kind k pre)

/-- The predecessors of one job are replaced. -/
theorem Plain.replace (h : jobs.Plain) (hsep : jobs'.Separate) {job : HoldJob}
    (hjob : jobs'.job = Function.update jobs.job n (some job))
    (hpres : ∀ kind k, k ≠ n → jobs'.predecessorList kind k = jobs.predecessorList kind k)
    (hlocated : ∀ kind, ∀ pre ∈ jobs'.predecessorList kind n, (jobs.job pre).isSome)
    (hgrown : ∀ kind k pre, k ≠ n →
      (jobs.successorList kind pre).count k ≤ (jobs'.successorList kind pre).count k)
    (hlinked : ∀ kind pre, pre ≠ 0 →
      (jobs'.predecessorList kind n).count pre ≤ (jobs'.successorList kind pre).count n)
    (hfree : ∀ kind, ∀ pre ∈ jobs'.predecessorList kind n,
      ¬ ReflTransGen (WaitsFor jobs.deps) pre n) : jobs'.Plain where
  separate := hsep
  located kind k pre hpre := by
    rw [hjob, Function.update_apply]
    split_ifs
    · rfl
    · by_cases hk : k = n
      · exact hlocated kind pre (hk ▸ hpre)
      · exact h.located kind k pre (hpres kind k hk ▸ hpre)
  linked kind k pre := by
    by_cases hk : k = n
    · by_cases hzero : pre = 0
      · rw [hzero, List.count_eq_zero.mpr (hsep.ne_zero kind k)]
        exact Nat.zero_le _
      · exact hk ▸ hlinked kind pre hzero
    · rw [hpres kind k hk]
      exact (h.linked kind k pre).trans (hgrown kind k pre hk)
  ranked := by
    have hsame : ∀ k, k ≠ n → jobs'.deps k ⊆ jobs.deps k := by
      intro k hk
      rw [deps, hpres .jid k hk, hpres .ad k hk]
      exact List.Subset.refl _
    refine h.ranked.replace (fun pre hpre => ?_) hsame
    obtain ⟨kind, hmem⟩ := mem_deps.mp hpre
    exact hfree kind pre hmem

theorem Plain.submitted (h : jobs.Plain) (hfresh : jobs.job n = none) {jep : HoldJob}
    {r : HoldKind → List ℕ × (ℕ → List ℕ)}
    (hr : jobs.sgeJobVerifyAdjust stringBaseCmp ids n jep = some r) :
    Plain { jobs with successorList := fun kind => (r kind).2 } ∧
      (Separate (jobs.added n jep r) → Plain (jobs.added n jep r)) := by
  have hchained : ∀ kind, ∃ pres, Chained jobs n pres (jobs.successorList kind) (r kind) := by
    obtain ⟨jid, -, hr⟩ := Option.bind_eq_some_iff.mp hr
    obtain ⟨ad, -, hr⟩ := Option.bind_eq_some_iff.mp hr
    cases hr
    exact fun kind => ⟨_, jobSucPreDoit_chained _ _⟩
  have hgrown : ∀ kind k m, (jobs.successorList kind k).count m ≤ ((r kind).2 k).count m :=
    fun kind => (hchained kind).choose_spec.count_le
  have hnot : ∀ kind k, n ∉ jobs.predecessorList kind k := by
    intro kind k hmem
    simpa [hfresh] using h.located kind k n hmem
  refine ⟨h.of_sublist (fun _ _ => .refl _) h.located fun kind k pre =>
    (h.linked kind k pre).trans (hgrown kind pre k), fun hsep => ?_⟩
  have hown : ∀ kind, (jobs.added n jep r).predecessorList kind n = (r kind).1 :=
    fun kind => Function.update_self ..
  have hlocated : ∀ kind, ∀ pre ∈ (jobs.added n jep r).predecessorList kind n,
      (jobs.job pre).isSome := by
    intro kind pre hpre
    obtain ⟨pres, hpres⟩ := hchained kind
    refine (hpres.located pre (hown kind ▸ hpre)).resolve_left ?_
    exact ne_of_mem_of_not_mem hpre (hsep.ne_zero kind n)
  refine h.replace hsep rfl (fun kind k hk => Function.update_of_ne hk _ _) hlocated
    (fun kind k pre _ => hgrown kind pre k) (fun kind pre hzero => ?_) ?_
  · have hadd := (hchained kind).choose_spec.count_add_le pre hzero
    exact hown kind ▸ (Nat.le_add_right _ _).trans hadd
  · intro kind pre hpre hlead
    rcases hlead.cases_tail with heq | ⟨k, -, hk⟩
    · have hsome := hlocated kind pre hpre
      simp [← heq, hfresh] at hsome
    · obtain ⟨kind', hmem⟩ := mem_deps.mp hk
      exact hnot kind' k hmem

theorem modJobAttributes_spec {newJob : HoldJob} {newPreList : List ℕ}
    (hmod : jobs.modJobAttributes stringBaseCmp ids n fuel newJob kind = some newPreList) :
    (∀ pre ∈ newPreList, (jobs.job pre).isSome) ∧
      (newPreList = [] ∨ jobs.containsDependencyCycles n fuel
        (Function.update (fun kind => jobs.predecessorList kind n) kind newPreList) =
          some false) := by
  obtain ⟨pres, -, hmod⟩ := Option.bind_eq_some_iff.mp hmod
  dsimp only at hmod
  split_ifs at hmod with hempty
  · cases hmod
    exact ⟨List.forall_mem_nil _, .inl rfl⟩
  · obtain ⟨isCycle, hcheck, hmod⟩ := Option.bind_eq_some_iff.mp hmod
    cases isCycle with
    | true => cases hmod
    | false =>
        cases hmod
        exact ⟨fun pre hpre => (List.mem_filter.mp hpre).2, .inr hcheck⟩

theorem replaceJob_spec (newJob : HoldJob) (newPreList : List ℕ) :
    ∃ r, Chained { jobs with job := Function.update jobs.job n (some newJob) } n newPreList
        (eraseAll n (jobs.successorList kind) (jobs.predecessorList kind n)) r ∧
      (∀ kind' k, (jobs.replaceJob n kind newJob newPreList).predecessorList kind' k =
        if kind' = kind ∧ k = n then r.1 else jobs.predecessorList kind' k) ∧
      ∀ kind', (jobs.replaceJob n kind newJob newPreList).successorList kind' =
        if kind' = kind then r.2 else jobs.successorList kind' := by
  refine ⟨_, jobSucPreDoit_chained _ _, fun kind' k => ?_, fun kind' => ?_⟩
  · by_cases hkind : kind' = kind
    · subst hkind
      simp [replaceJob, Function.update_apply]
    · simp [replaceJob, hkind]
  · simp [replaceJob, Function.update_apply]

theorem Plain.replaceJob (h : jobs.Plain) {newJob : HoldJob} {newPreList : List ℕ}
    (hmod : jobs.modJobAttributes stringBaseCmp ids n fuel newJob kind = some newPreList)
    (hsep : (jobs.replaceJob n kind newJob newPreList).Separate) :
    (jobs.replaceJob n kind newJob newPreList).Plain := by
  obtain ⟨hlisted, hcheck⟩ := modJobAttributes_spec hmod
  obtain ⟨r, hr, hpred, hsuc⟩ := @replaceJob_spec jobs kind n newJob newPreList
  have hfree : ∀ pre ∈ r.1, ¬ ReflTransGen (WaitsFor jobs.deps) pre n := by
    intro pre hpre hlead
    obtain ⟨kind', hnil⟩ := hsep.single n
    rw [hpred] at hnil
    split_ifs at hnil with hkind
    · exact List.not_mem_nil (hnil ▸ hpre)
    · have hne : kind' ≠ kind := fun heq => hkind ⟨heq, rfl⟩
      rcases hcheck with hnew | hcheck
      · exact List.not_mem_nil (hnew ▸ hr.subset hpre)
      · refine Bool.false_ne_true ((containsDependencyCycles_iff h hcheck).mpr
          ⟨pre, (mem_decisive ⟨kind', ?_⟩).mpr ⟨kind, ?_⟩, hlead⟩)
        · rwa [Function.update_of_ne hne]
        · rw [Function.update_self]
          exact hr.subset hpre
  refine h.replace (n := n) hsep rfl (fun kind' k hk => ?_) (fun kind' pre hpre => ?_)
    (fun kind' k pre hk => ?_) (fun kind' pre hzero => ?_) (fun kind' pre hpre => ?_)
  · rw [hpred, if_neg fun heq => hk heq.2]
  · rw [hpred] at hpre
    split_ifs at hpre
    · exact hlisted pre (hr.subset hpre)
    · exact h.located kind' n pre hpre
  · rw [hsuc]
    split_ifs with hkind
    · have hkeeps := hr.count_le pre k
      rw [(eraseAll_spec _ _ _).2, if_neg hk] at hkeeps
      exact hkind ▸ hkeeps
    · exact le_rfl
  · rw [hpred, hsuc]
    by_cases hkind : kind' = kind
    · rw [if_pos ⟨hkind, rfl⟩, if_pos hkind]
      exact (Nat.le_add_right _ _).trans (hr.count_add_le pre hzero)
    · rw [if_neg fun heq => hkind heq.1, if_neg hkind]
      exact h.linked kind' n pre
  · rw [hpred] at hpre
    split_ifs at hpre
    · exact hfree pre hpre
    · exact h.ranked.not_leads (mem_deps.mpr ⟨kind', hpre⟩)

theorem Plain.step (h : jobs.Plain) {e : HoldEvent} (hstep : e.Step stringBaseCmp jobs jobs')
    (hsep : jobs'.Separate) : jobs'.Plain := by
  cases e with
  | submitted n jep ids refused =>
      obtain ⟨-, hfresh, r, hr, rfl⟩ := hstep
      split_ifs at hsep ⊢
      · exact (h.submitted hfresh hr).1
      · exact (h.submitted hfresh hr).2 hsep
  | modified n kind request ids =>
      obtain ⟨fuel, hmod⟩ := hstep
      obtain ⟨jobep, -, hmod⟩ := Option.bind_eq_some_iff.mp hmod
      obtain ⟨newPreList, hnew, hmod⟩ := Option.bind_eq_some_iff.mp hmod
      cases hmod
      exact h.replaceJob hnew hsep
  | released n =>
      cases hstep
      exact (h.releaseSuccessorJobs n).1
  | buried n =>
      cases hstep
      obtain ⟨hreleased, hgone⟩ := h.releaseSuccessorJobs n
      exact hreleased.removed hgone
  | changed f =>
      cases hstep
      exact h.of_sublist (fun _ _ => .refl _)
        (fun kind n pre hpre => by simpa using h.located kind n pre hpre) h.linked

end Steps

section Runs

def empty : HoldJobs := ⟨fun _ => none, fun _ _ => [], fun _ _ => []⟩

theorem plain_of_run {hist : List HoldEvent}
    (h : Run (SeparateStep stringBaseCmp) empty hist jobs) : jobs.Plain := by
  have hempty : empty.Plain :=
    ⟨⟨fun _ => ⟨.jid, rfl⟩, fun _ _ => List.not_mem_nil⟩, fun _ _ => List.forall_mem_nil _,
      fun _ _ _ => le_rfl, fun _ => 0, fun _ => List.forall_mem_nil _⟩
  exact h.invariant (P := fun _ jobs => jobs.Plain) hempty
    fun _ _ _ _ h hstep => h.step hstep.1 hstep.2

/-- A job with a task that waits, and with the given requests of `-hold_jid`. -/
def waiting (request : List String) : HoldJob :=
  ⟨"user", "job", false, ⟨none, fun _ => some [], [], ⟨0, 0, 0⟩⟩, fun _ => 0, fun _ => [],
    fun | .jid => request | .ad => []⟩

def oneJob : HoldJobs := empty.added 1 (waiting []) fun _ => ([], fun _ => [])

def twoJobs : HoldJobs := oneJob.added 2 (waiting ["1"]) fun
  | .jid => ([1], Function.update (fun _ => []) 1 [2])
  | .ad => ([], fun _ => [])

theorem twoJobs_run : ∃ hist, Run (SeparateStep (· == ·)) empty hist twoJobs := by
  have hone : SeparateStep (· == ·) empty (.submitted 1 (waiting []) [] false) oneJob := by
    refine ⟨⟨by decide, rfl, _, rfl, congrArg (empty.added 1 (waiting [])) ?_⟩,
      fun n => ⟨.ad, ?_⟩, fun kind n => ?_⟩
    · funext kind
      cases kind <;> rfl
    all_goals simp [oneJob, added, empty]
  have htwo : SeparateStep (· == ·) oneJob (.submitted 2 (waiting ["1"]) [1] false) twoJobs := by
    refine ⟨⟨by decide, rfl, _, rfl, congrArg (oneJob.added 2 (waiting ["1"])) ?_⟩,
      fun n => ⟨.ad, ?_⟩, fun kind n => ?_⟩
    · funext kind
      cases kind <;> rfl
    · simp [twoJobs, oneJob, added, empty, Function.update_apply]
    · cases kind <;> simp [twoJobs, oneJob, added, empty, Function.update_apply]
  exact ⟨_, (Run.nil.snoc hone).snoc htwo⟩

/-- The job 2 waits for the job 1, and yet the job 1 may wait for 2 and 3. -/
example : containsDependencyCycles (twoJobs.added 3 (waiting []) fun _ => ([], fun _ => [])) 1 2
    (fun | .jid => [2] | .ad => [3]) = some false := by
  rfl

end Runs

end HoldJobs

end GridEngine
