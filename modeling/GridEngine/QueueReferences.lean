import GridEngine.ExpressionGrammar
import GridEngine.HostRefClosure
import GridEngine.KeyedLists

/-!
# Queue references

A queue reference is an expression for cluster queues, with an expression for hosts or for host
groups behind an `@`. `qref_list_resolve` looks up the queue instances for a request of an
administrator, and `qref_list_cq_rejected` tests them one by one for the scheduler. The first reads
the expression for host groups and the names of the groups with their `@`, and the groups in a
group by their names; the second without the `@`, and the names in a group as expressions.
-/

namespace GridEngine.QueueReferences
open EvalExpression

/-- `sge_hostmatch`. -/
def sgeHostmatch (cfg : HostConfig) (fnmatch : List Char → List Char → ℤ) (h1 h2 : List Char) : ℤ :=
  fnmatch (cfg.sgeHostcpy (String.ofList h1)).toList (cfg.sgeHostcpy (String.ofList h2)).toList

/-- `sge_hostcmp` for equality. -/
def sgeHostcmp (cfg : HostConfig) (h1 h2 : List Char) : ℤ :=
  if cfg.sgeHostcmp (String.ofList h1) (String.ofList h2) then 0 else 1

/-- `sge_eval_expression` with the host names of the configuration, as a total function. -/
structure Evaluator (cfg : HostConfig) (fnmatch : List Char → List Char → ℤ) where
  eval : ℕ → List Char → List Char → ℤ
  evaluates : ∀ (type : ℕ) (expr value : EvalExpression.CString),
    Evaluates fnmatch (sgeHostmatch cfg fnmatch) (sgeHostcmp cfg) type expr value
      (eval type expr.chars value.chars)

/-- A `QU_Type` element, which is known by its two names. -/
structure QInstance where
  qname : String
  qhostname : String
deriving DecidableEq, Repr

/-- A `CQ_Type` element. -/
structure Cqueue where
  name : String
  qinstances : List QInstance
deriving DecidableEq, Repr

/-- The master lists and what the references are evaluated with. `getuniquehostname` has no name
for a host that cannot be resolved. -/
structure Cluster where
  cfg : HostConfig
  fnmatch : List Char → List Char → ℤ
  evaluator : Evaluator cfg fnmatch
  getuniquehostname : String → Option String
  cqueueList : List Cqueue
  hgroupList : Option (List HGroup)

section Model
variable (s : Cluster)

/-- `sge_eval_expression` of a cluster queue or of a host, when it delivers 0. -/
def Cluster.matchesStr (expr value : List Char) : Bool :=
  s.evaluator.eval typeStr expr value = 0

def Cluster.matchesHost (expr value : List Char) : Bool :=
  s.evaluator.eval typeHost expr value = 0

/-- What `cqueue_name_split` delivers beside its return value. -/
structure NameSplit where
  cqueueName : List Char
  hostDomain : List Char
  hasHostname : Bool
  hasDomain : Bool
deriving DecidableEq, Repr

/-- The loop of `cqueue_name_split`. -/
def splitLoop : Bool → List Char → NameSplit → Bool × NameSplit
  | _, [], split => (true, split)
  | false, c :: name, split =>
      if c = '@' then
        match name with
        | [] => (false, split)
        | d :: rest =>
            if d = '@' then
              if rest = [] then (false, split)
              else splitLoop true name { split with hasDomain := true, hasHostname := false }
            else splitLoop true name { split with hasDomain := false, hasHostname := true }
      else splitLoop false name { split with cqueueName := split.cqueueName ++ [c] }
  | true, c :: name, split =>
      splitLoop true name { split with hostDomain := split.hostDomain ++ [c] }

/-- `cqueue_name_split`. -/
def cqueueNameSplit (name : List Char) : Bool × NameSplit :=
  splitLoop false name ⟨[], [], false, false⟩

/-- `cqueue_list_find_all_matching_references`. -/
def cqueueListFindAllMatchingReferences (cqueuePattern : Option (List Char)) : List String :=
  match cqueuePattern with
  | none => []
  | some pattern =>
      (s.cqueueList.filter fun cqueue => s.matchesStr pattern cqueue.name.toList).map Cqueue.name

/-- `CQ_qinstances` of the cluster queue with this name. -/
def Cluster.qinstanceList (name : String) : List QInstance :=
  ((s.cqueueList.find? fun cqueue => cqueue.name = name).map Cqueue.qinstances).getD []

/-- `qinstance_list_find_matching`. -/
def qinstanceListFindMatching (qinstanceList : List QInstance) (hostnamePattern : String) :
    List QInstance :=
  let host := (s.getuniquehostname hostnamePattern).getD hostnamePattern
  qinstanceList.filter fun qinstance => s.matchesHost host.toList qinstance.qhostname.toList

/-- `hgroup_list_find_matching_and_resolve`; `none` is the end of the fuel. -/
def hgroupListFindMatchingAndResolve (fuel : ℕ) (hgroupPattern : List Char) :
    List HGroup → Option (List String)
  | [] => some []
  | hgroup :: hgroups =>
      if s.matchesHost hgroupPattern hgroup.name.toList then do
        let used ← hrefListFindAllReferences s.cfg fuel [hgroup.name] s.hgroupList ⟨[], []⟩
        let rest ← hgroupListFindMatchingAndResolve fuel hgroupPattern hgroups
        return used.hosts ++ rest
      else hgroupListFindMatchingAndResolve fuel hgroupPattern hgroups

/-- `qref_list_resolve_qdomain_names` with the hosts of the host groups. -/
def qrefListResolveQdomainNames (cqNames : List String) (hrefList : List String) : List QInstance :=
  cqNames.flatMap fun name => hrefList.filterMap fun hostname =>
    (s.qinstanceList name).find? fun qinstance => s.cfg.sgeHostcmp qinstance.qhostname hostname

/-- One turn of the loop of `qref_list_resolve` with both resolve flags. The string `cqueue_name`
is no string before the first character is appended to it, which `allocated` tells. -/
def resolveReference (fuel : ℕ) (allocated : Bool) (name : String) :
    Option (List QInstance × Bool) :=
  let split := cqueueNameSplit name.toList
  let allocated := allocated || split.2.cqueueName ≠ []
  if split.1 = false then some ([], allocated)
  else
    let cqNames := cqueueListFindAllMatchingReferences s
      (if allocated then some split.2.cqueueName else none)
    if split.2.hasDomain then do
      let hrefList ← hgroupListFindMatchingAndResolve s fuel split.2.hostDomain
        (s.hgroupList.getD [])
      return (qrefListResolveQdomainNames s cqNames hrefList, allocated)
    else if split.2.hasHostname then
      some (cqNames.flatMap fun cqName => qinstanceListFindMatching s (s.qinstanceList cqName)
        (String.ofList split.2.hostDomain), allocated)
    else some (cqNames.flatMap s.qinstanceList, allocated)

/-- `qref_list_resolve` with both resolve flags: the queue instances of which it adds the name. -/
def qrefListResolve (fuel : ℕ) : Bool → List String → Option (List QInstance)
  | _, [] => some []
  | allocated, name :: list => do
      let (found, allocated) ← resolveReference s fuel allocated name
      let rest ← qrefListResolve fuel allocated list
      return found ++ rest

/-- A loop that is left with `false` at the first element that is not rejected. -/
def allRejected {α : Type} (rejected : α → Option Bool) : List α → Option Bool
  | [] => some true
  | x :: list =>
      match rejected x with
      | none => none
      | some false => some false
      | some true => allRejected rejected list

/-- `qref_list_host_rejected`; `none` is the end of the fuel. -/
def qrefListHostRejected : ℕ → List Char → List Char → Option Bool
  | 0, _, _ => none
  | fuel + 1, href, hostname =>
      if href.head? = some '@' then
        allRejected (fun hgroup : HGroup =>
          if s.matchesHost href.tail hgroup.name.toList.tail then
            allRejected (fun h : String => qrefListHostRejected fuel h.toList hostname)
              hgroup.hostList.elems
          else some true) (s.hgroupList.getD [])
      else some !(s.matchesHost href hostname)

/-- `strchr` for the `@`: what is in front of it, and what is behind it when there is one. -/
def cutAt (name : List Char) : List Char × Option (List Char) :=
  (name.takeWhile (· ≠ '@'), (name.dropWhile (· ≠ '@')).tail?)

/-- `qref_cq_rejected`. -/
def qrefCqRejected (fuel : ℕ) (cqname : String) (hostname : Option String) (qrefPattern : String) :
    Option Bool :=
  match cutAt qrefPattern.toList with
  | (wcCqueue, some wcHost) =>
      if s.matchesStr wcCqueue cqname.toList then
        match hostname with
        | none => some false
        | some hostname => qrefListHostRejected s fuel wcHost hostname.toList
      else some true
  | (wcCqueue, none) => some !(s.matchesStr wcCqueue cqname.toList)

/-- `qref_eh_rejected`. -/
def qrefEhRejected (fuel : ℕ) (hostname qrefPattern : String) : Option Bool :=
  match (cutAt qrefPattern.toList).2 with
  | none => some false
  | some wcHost => qrefListHostRejected s fuel wcHost hostname.toList

/-- `qref_list_cq_rejected`. No list rejects nothing. -/
def qrefListCqRejected (fuel : ℕ) (qrefList : Option (List String)) (cqname : String)
    (hostname : Option String) : Option Bool :=
  match qrefList with
  | none => some false
  | some qrefList => allRejected (qrefCqRejected s fuel cqname hostname) qrefList

/-- `qref_list_eh_rejected`. -/
def qrefListEhRejected (fuel : ℕ) (qrefList : Option (List String)) (hostname : String) :
    Option Bool :=
  match qrefList with
  | none => some false
  | some qrefList => allRejected (qrefEhRejected s fuel hostname) qrefList

end Model

section Spec
variable (s : Cluster)

/-- The host groups, none without a list of them. -/
abbrev Cluster.hgroups : List HGroup := s.hgroupList.getD []

/-- A host with a queue instance. -/
def Cluster.HasInstance (host : String) : Prop :=
  ∃ cqueue ∈ s.cqueueList, ∃ qinstance ∈ cqueue.qinstances, qinstance.qhostname = host

/-- What the requests that change the master lists see to. -/
structure Cluster.Ok : Prop where
  master : MasterOk s.cfg s.hgroups
  acyclic : ReferenceGraph.Acyclic (Refs s.cfg s.hgroups)
  names : ∀ cqueue ∈ s.cqueueList, cqueue.name ≠ "" ∧ '\x00' ∉ cqueue.name.toList
  distinct : (s.cqueueList.map Cqueue.name).Nodup
  owned : ∀ cqueue ∈ s.cqueueList, ∀ qinstance ∈ cqueue.qinstances,
    qinstance.qname = cqueue.name ∧ isHgroupName qinstance.qhostname = false
  hosts : ∀ cqueue ∈ s.cqueueList,
    (cqueue.qinstances.map fun qinstance => s.cfg.hostKey qinstance.qhostname).Nodup

/-- The names in the host groups mean the same as expressions. -/
structure NamesAlike : Prop where
  groups : ∀ hgroup ∈ s.hgroups, ∀ name ∈ hgroup.hostList.elems, isHgroupName name = true →
    ∀ hgroup' ∈ s.hgroups, (s.matchesHost name.toList.tail hgroup'.name.toList.tail = true ↔
      s.cfg.hostKey name = s.cfg.hostKey hgroup'.name)
  hosts : ∀ hgroup ∈ s.hgroups, ∀ name ∈ hgroup.hostList.elems, isHgroupName name = false →
    ∀ host, s.HasInstance host → (s.matchesHost name.toList host.toList = true ↔
      s.cfg.hostKey name = s.cfg.hostKey host)

/-- The host that `getuniquehostname` makes of an expression, or the expression itself. -/
def Cluster.uniqueHost (expr : List Char) : List Char :=
  ((s.getuniquehostname (String.ofList expr)).getD (String.ofList expr)).toList

/-- The two functions read the expressions of a list and the names in the host groups alike. -/
structure ReadsAlike (list : List String) : Prop where
  groupExpressions : ∀ ref ∈ list, ∀ expr, (cutAt ref.toList).2 = some ('@' :: expr) →
    ∀ hgroup ∈ s.hgroups, (s.matchesHost expr hgroup.name.toList.tail = true ↔
      expr ≠ [] ∧ s.matchesHost ('@' :: expr) hgroup.name.toList = true)
  hostExpressions : ∀ ref ∈ list, ∀ expr, (cutAt ref.toList).2 = some expr →
    expr.head? ≠ some '@' → ∀ host, s.HasInstance host →
      (s.matchesHost expr host.toList = true ↔
        expr ≠ [] ∧ s.matchesHost (s.uniqueHost expr) host.toList = true)
  names : NamesAlike s

/-- The queue instances that are looked up are those that are not rejected, and what is not
rejected is neither rejected by its cluster queue nor by its host. -/
structure MeansSame (fuel : ℕ) (list : List String) : Prop where
  resolved : ∃ found, qrefListResolve s fuel false list = some found ∧
    (∀ qinstance ∈ found, ∃ cqueue ∈ s.cqueueList, qinstance ∈ cqueue.qinstances) ∧
    ∀ cqueue ∈ s.cqueueList, ∀ qinstance ∈ cqueue.qinstances, ∃ rejected,
      qrefListCqRejected s fuel (some list) qinstance.qname (some qinstance.qhostname) =
        some rejected ∧ (qinstance ∈ found ↔ rejected = false)
  partialChecks : ∀ cqname hostname,
    qrefListCqRejected s fuel (some list) cqname (some hostname) = some false →
      qrefListCqRejected s fuel (some list) cqname none = some false ∧
        qrefListEhRejected s fuel (some list) hostname = some false

end Spec

section Rejection
open ReferenceGraph Relation
variable {s : Cluster} {fuel : ℕ} {list : List String} {name host : String}

theorem allRejected_eq {α : Type} {rejected : α → Option Bool} {l : List α}
    (h : ∀ x ∈ l, ∃ b, rejected x = some b) :
    ∃ b, allRejected rejected l = some b ∧ (b = false ↔ ∃ x ∈ l, rejected x = some false) := by
  induction l with
  | nil => exact ⟨true, rfl, by simp⟩
  | cons x l ih =>
      obtain ⟨b, hb⟩ := h x List.mem_cons_self
      obtain ⟨b', hb', hiff⟩ := ih fun y hy => h y (List.mem_cons_of_mem x hy)
      rw [allRejected, hb]
      cases b with
      | false => exact ⟨false, rfl, by simp [hb]⟩
      | true => exact ⟨b', hb', by simp [hb, hiff]⟩

theorem isHgroupName_iff : isHgroupName name = true ↔ name.toList.head? = some '@' := by
  simp [isHgroupName]

/-- A name of a host or of a host group stands for a host. -/
def Covers (s : Cluster) (name host : String) : Prop :=
  ∃ c, ReflTransGen (Refs s.cfg s.hgroups) (s.cfg.hostKey name) c ∧
    Carries s.cfg s.hgroups c (s.cfg.hostKey host)

theorem covers_host (hok : s.Ok) (hname : isHgroupName name = false) :
    Covers s name host ↔ s.cfg.hostKey name = s.cfg.hostKey host := by
  have hhead : (s.cfg.hostKey name).head? ≠ some '@' := by
    intro h
    rw [head_hostKey.mp h] at hname
    cases hname
  constructor
  · rintro ⟨c, hpath, hcarries⟩
    rcases ReflTransGen.cases_head hpath with rfl | ⟨b, hstep, -⟩
    · rcases hcarries with ⟨-, heq⟩ | hin
      · exact heq
      · exact absurd (hin.source_head hok.master) hhead
    · exact absurd (hstep.source_head hok.master) hhead
  · intro heq
    exact ⟨_, .refl, .inl ⟨hhead, heq⟩⟩

theorem covers_group (hok : s.Ok) (hname : isHgroupName name = true) :
    Covers s name host ↔ ∃ hgroup ∈ s.hgroups, s.cfg.hostKey name = s.cfg.hostKey hgroup.name ∧
      ∃ href ∈ hgroup.hostList.elems, Covers s href host := by
  have hhead := (@head_hostKey s.cfg name).mpr hname
  constructor
  · rintro ⟨c, hpath, hcarries⟩
    rcases ReflTransGen.cases_head hpath with rfl | ⟨b, hstep, hrest⟩
    · rcases hcarries with ⟨hne, -⟩ | ⟨hgroup, hmem, hkey, href, hhref, hhost, heq⟩
      · exact absurd hhead hne
      · exact ⟨hgroup, hmem, hkey.symm, href, hhref, (covers_host hok hhost).mpr heq⟩
    · obtain ⟨hgroup, hmem, hkey, href, hhref, -, rfl⟩ := hstep
      exact ⟨hgroup, hmem, hkey.symm, href, hhref, c, hrest, hcarries⟩
  · rintro ⟨hgroup, hmem, hkey, href, hhref, hcovers⟩
    by_cases hsub : isHgroupName href = true
    · obtain ⟨c, hpath, hcarries⟩ := hcovers
      exact ⟨c, ReflTransGen.head ⟨hgroup, hmem, hkey.symm, href, hhref, hsub, rfl⟩ hpath,
        hcarries⟩
    · rw [Bool.not_eq_true] at hsub
      have heq := (covers_host hok hsub).mp hcovers
      exact ⟨_, .refl, .inr ⟨hgroup, hmem, hkey.symm, href, hhref, hsub, heq⟩⟩

theorem covers_hgroup (hok : s.Ok) {hgroup : HGroup} (hmem : hgroup ∈ s.hgroups) :
    Covers s hgroup.name host ↔ ∃ href ∈ hgroup.hostList.elems, Covers s href host := by
  rw [covers_group hok (hok.master.groupNames hgroup hmem)]
  constructor
  · rintro ⟨hgroup', hmem', hkey, hhref⟩
    rwa [hok.master.eq_of_key hmem hmem' hkey]
  · exact fun h => ⟨hgroup, hmem, rfl, h⟩

/-- The two loops over the names in the host groups that an expression selects. -/
theorem allRejected_groups {rejected : String → Option Bool} {selects : HGroup → Bool}
    {hgroups : List HGroup} (h : ∀ hgroup ∈ hgroups, selects hgroup = true →
      ∀ href ∈ hgroup.hostList.elems, ∃ b, rejected href = some b) :
    ∃ b, allRejected (fun hgroup : HGroup => if selects hgroup then
        allRejected rejected hgroup.hostList.elems else some true) hgroups = some b ∧
      (b = false ↔ ∃ hgroup ∈ hgroups, selects hgroup = true ∧
        ∃ href ∈ hgroup.hostList.elems, rejected href = some false) := by
  have hgroup : ∀ hgroup ∈ hgroups, ∃ b, (if selects hgroup then
        allRejected rejected hgroup.hostList.elems else some true) = some b ∧
      (b = false ↔ selects hgroup = true ∧
        ∃ href ∈ hgroup.hostList.elems, rejected href = some false) := by
    intro hgroup hmem
    by_cases hsel : selects hgroup = true
    · obtain ⟨b, hb, hiff⟩ := allRejected_eq (h hgroup hmem hsel)
      exact ⟨b, by rw [if_pos hsel, hb], by rw [hiff]; simp [hsel]⟩
    · exact ⟨true, if_neg hsel, by simp [hsel]⟩
  obtain ⟨b, hb, hiff⟩ := allRejected_eq fun hgroup' hmem =>
    (hgroup hgroup' hmem).imp fun _ => And.left
  refine ⟨b, hb, hiff.trans (exists_congr fun hgroup' => and_congr_right fun hmem => ?_)⟩
  obtain ⟨b', hb', hiff'⟩ := hgroup hgroup' hmem
  rw [hb', Option.some.injEq, hiff']

/-- The induction is on the fuel, which is above the height of the name. -/
theorem listed_rejected (hok : s.Ok) (hnames : NamesAlike s) (hpos : 0 < fuel)
    (hfuel : isHgroupName name = true →
      height (Refs s.cfg s.hgroups) (s.cfg.hostKey name) + 2 ≤ fuel)
    (hlisted : ∃ hgroup ∈ s.hgroups, name ∈ hgroup.hostList.elems) :
    ∃ b, qrefListHostRejected s fuel name.toList host.toList = some b ∧
      (s.HasInstance host → (b = false ↔ Covers s name host)) := by
  induction fuel generalizing name with
  | zero => exact absurd hpos (lt_irrefl 0)
  | succ fuel ih =>
      obtain ⟨owner, howner, hin⟩ := hlisted
      rw [qrefListHostRejected]
      by_cases hname : isHgroupName name = true
      · have hselects := hnames.groups owner howner name hin hname
        have hbelow : ∀ hgroup ∈ s.hgroups, s.cfg.hostKey name = s.cfg.hostKey hgroup.name →
            ∀ href ∈ hgroup.hostList.elems,
              ∃ b, qrefListHostRejected s fuel href.toList host.toList = some b ∧
                (s.HasInstance host → (b = false ↔ Covers s href host)) := by
          intro hgroup hmem hkey href hhref
          refine ih (by have := hfuel hname; omega) (fun hsub => ?_) ⟨hgroup, hmem, hhref⟩
          have hstep : Refs s.cfg s.hgroups (s.cfg.hostKey name) (s.cfg.hostKey href) :=
            ⟨hgroup, hmem, hkey.symm, href, hhref, hsub, rfl⟩
          have hlt := height_lt hok.acyclic finite_targets.1 hstep
          have hle := hfuel hname
          omega
        rw [if_pos (isHgroupName_iff.mp hname)]
        obtain ⟨b, hb, hiff⟩ := @allRejected_groups
          (fun h : String => qrefListHostRejected s fuel h.toList host.toList)
          (fun hgroup => s.matchesHost name.toList.tail hgroup.name.toList.tail) s.hgroups
          (fun hgroup hmem hsel href hhref =>
            (hbelow hgroup hmem ((hselects hgroup hmem).mp hsel) href hhref).imp
              fun _ => And.left)
        refine ⟨b, hb, fun hhost => ?_⟩
        rw [hiff, covers_group hok hname]
        refine exists_congr fun hgroup => and_congr_right fun hmem => ?_
        rw [hselects hgroup hmem]
        refine and_congr_right fun hkey => exists_congr fun href =>
          and_congr_right fun hhref => ?_
        obtain ⟨b', hb', hiff'⟩ := hbelow hgroup hmem hkey href hhref
        rw [hb', Option.some.injEq, hiff' hhost]
      · have hhead : name.toList.head? ≠ some '@' := fun h => hname (isHgroupName_iff.mpr h)
        rw [Bool.not_eq_true] at hname
        rw [if_neg hhead]
        refine ⟨_, rfl, fun hhost => ?_⟩
        rw [Bool.not_eq_false', hnames.hosts owner howner name hin hname host hhost,
          covers_host hok hname]

/-- An expression for host groups rejects the hosts that no selected host group covers. -/
theorem domain_rejected (hok : s.Ok) (hnames : NamesAlike s) {expr : List Char}
    (hfuel : refBound s.hgroups + 2 ≤ fuel) :
    ∃ b, qrefListHostRejected s fuel ('@' :: expr) host.toList = some b ∧
      (s.HasInstance host → (b = false ↔ ∃ hgroup ∈ s.hgroups,
        s.matchesHost expr hgroup.name.toList.tail = true ∧ Covers s hgroup.name host)) := by
  obtain ⟨fuel, rfl⟩ := Nat.exists_eq_add_of_le' (show 1 ≤ fuel by omega)
  have hbound := (@finite_targets s.cfg s.hgroups).2
  have hbelow : ∀ hgroup ∈ s.hgroups, ∀ href ∈ hgroup.hostList.elems,
      ∃ b, qrefListHostRejected s fuel href.toList host.toList = some b ∧
        (s.HasInstance host → (b = false ↔ Covers s href host)) := by
    intro hgroup hmem href hhref
    refine listed_rejected hok hnames (by omega) (fun _ => ?_) ⟨hgroup, hmem, hhref⟩
    have hle := height_le (@finite_targets s.cfg s.hgroups).1 (s.cfg.hostKey href)
    omega
  rw [qrefListHostRejected, if_pos List.head?_cons, List.tail_cons]
  obtain ⟨b, hb, hiff⟩ := @allRejected_groups
    (fun h : String => qrefListHostRejected s fuel h.toList host.toList)
    (fun hgroup => s.matchesHost expr hgroup.name.toList.tail) s.hgroups
    (fun hgroup hmem _ href hhref => (hbelow hgroup hmem href hhref).imp fun _ => And.left)
  refine ⟨b, hb, fun hhost => ?_⟩
  rw [hiff]
  refine exists_congr fun hgroup => and_congr_right fun hmem => and_congr_right fun _ => ?_
  rw [covers_hgroup hok hmem]
  refine exists_congr fun href => and_congr_right fun hhref => ?_
  obtain ⟨b', hb', hiff'⟩ := hbelow hgroup hmem href hhref
  rw [hb', Option.some.injEq, hiff' hhost]

end Rejection

section Splitting
variable {before : List Char} {name : List Char}

/-- The parts of a reference, from what is in front of its `@` and what is behind it. -/
def splitOf (before : List Char) : Option (List Char) → Bool × NameSplit
  | none => (true, ⟨before, [], false, false⟩)
  | some [] => (false, ⟨before, [], false, false⟩)
  | some (c :: expr) =>
      if c = '@' then
        if expr = [] then (false, ⟨before, [], false, false⟩)
        else (true, ⟨before, c :: expr, false, true⟩)
      else (true, ⟨before, c :: expr, true, false⟩)

theorem splitLoop_true (split : NameSplit) :
    splitLoop true name split = (true, { split with hostDomain := split.hostDomain ++ name }) := by
  induction name generalizing split with
  | nil => simp [splitLoop]
  | cons c name ih => simp [splitLoop, ih]

theorem splitLoop_false :
    splitLoop false name ⟨before, [], false, false⟩ =
      splitOf (before ++ (cutAt name).1) (cutAt name).2 := by
  induction name generalizing before with
  | nil => simp [splitLoop, cutAt, splitOf]
  | cons c name ih =>
      by_cases hc : c = '@'
      · subst hc
        cases name with
        | nil => simp [splitLoop, cutAt, splitOf]
        | cons d rest =>
            by_cases hd : d = '@'
            · subst hd
              by_cases hrest : rest = []
              · simp [splitLoop, cutAt, splitOf, hrest]
              · simp [splitLoop, cutAt, splitOf, hrest, splitLoop_true]
            · simp [splitLoop, cutAt, splitOf, hd, splitLoop_true]
      · simp [splitLoop, hc, ih, cutAt]

theorem cqueueNameSplit_eq : cqueueNameSplit name = splitOf (cutAt name).1 (cutAt name).2 := by
  rw [cqueueNameSplit, splitLoop_false, List.nil_append]

end Splitting

section Resolution
open ReferenceGraph Relation
variable {s : Cluster} {fuel : ℕ} {list : List String} {name host : String}
variable {qinstance : QInstance} {before : List Char} {pattern : Option (List Char)}

theorem hgroupList_eq {hgroup : HGroup} (h : hgroup ∈ s.hgroups) :
    s.hgroupList = some s.hgroups := by
  cases hl : s.hgroupList with
  | none => simp [Cluster.hgroups, hl] at h
  | some l => simp [Cluster.hgroups, hl]

theorem findMatchingAndResolve_spec (hok : s.Ok) (hfuel : refBound s.hgroups ≤ fuel)
    (expr : List Char) {hgroups : List HGroup} (hsub : ∀ hgroup ∈ hgroups, hgroup ∈ s.hgroups) :
    ∃ hosts, hgroupListFindMatchingAndResolve s fuel expr hgroups = some hosts ∧
      ∀ host, s.cfg.hostKey host ∈ hostKeys s.cfg hosts ↔ ∃ hgroup ∈ hgroups,
        s.matchesHost expr hgroup.name.toList = true ∧ Covers s hgroup.name host := by
  induction hgroups with
  | nil => exact ⟨[], rfl, by simp⟩
  | cons hgroup hgroups ih =>
      obtain ⟨rest, hrest, hkeys⟩ := ih fun g hg => hsub g (List.mem_cons_of_mem hgroup hg)
      rw [hgroupListFindMatchingAndResolve]
      by_cases hmatch : s.matchesHost expr hgroup.name.toList = true
      · obtain ⟨used, hused, hreach⟩ :=
          findAllReferences_spec hok.master hok.acyclic [hgroup.name] [] hfuel
        rw [← hgroupList_eq (hsub hgroup List.mem_cons_self)] at hused
        refine ⟨used.hosts ++ rest, by rw [if_pos hmatch, hused, hrest]; rfl, fun host => ?_⟩
        rw [hostKeys_append, Set.mem_union, hkeys, hreach.hosts]
        simp [hmatch, Covers]
      · refine ⟨rest, by rw [if_neg hmatch, hrest], fun host => ?_⟩
        rw [hkeys]
        simp [hmatch]

theorem mem_qinstanceList (hok : s.Ok) : qinstance ∈ s.qinstanceList name ↔
    ∃ cqueue ∈ s.cqueueList, cqueue.name = name ∧ qinstance ∈ cqueue.qinstances := by
  have hfind := fun cqueue =>
    @KeyedLists.find?_key_iff _ _ _ Cqueue.name s.cqueueList name cqueue hok.distinct
  rw [Cluster.qinstanceList]
  constructor
  · intro h
    cases hcq : s.cqueueList.find? fun cqueue => cqueue.name = name with
    | none => simp [hcq] at h
    | some cqueue =>
        obtain ⟨hmem, hname⟩ := (hfind cqueue).mp hcq
        exact ⟨cqueue, hmem, hname, by simpa [hcq] using h⟩
  · rintro ⟨cqueue, hmem, hname, hq⟩
    simpa [(hfind cqueue).mpr ⟨hmem, hname⟩] using hq

theorem find_qinstance (hok : s.Ok) : ((s.qinstanceList name).find? fun qinstance =>
      s.cfg.sgeHostcmp qinstance.qhostname host) = some qinstance ↔
    qinstance ∈ s.qinstanceList name ∧
      s.cfg.hostKey qinstance.qhostname = s.cfg.hostKey host := by
  refine KeyedLists.find?_key_iff ?_
  rw [Cluster.qinstanceList]
  cases hcq : s.cqueueList.find? fun cqueue => cqueue.name = name with
  | none => exact List.nodup_nil
  | some cqueue => exact hok.hosts cqueue (List.mem_of_find?_eq_some hcq)

/-- No cluster queue is found without a pattern, and none matches the empty one. -/
theorem mem_matching (hok : s.Ok) (hpattern : pattern = some before ∨
      pattern = none ∧ s.cqueueList.all fun cqueue => !(s.matchesStr before cqueue.name.toList)) :
    (∃ name ∈ cqueueListFindAllMatchingReferences s pattern, qinstance ∈ s.qinstanceList name) ↔
      (∃ cqueue ∈ s.cqueueList, qinstance ∈ cqueue.qinstances) ∧
        s.matchesStr before qinstance.qname.toList = true := by
  constructor
  · rintro ⟨name, hname, hq⟩
    obtain ⟨cqueue, hmem, rfl, hin⟩ := (mem_qinstanceList hok).mp hq
    rcases hpattern with rfl | ⟨rfl, -⟩
    · obtain ⟨cqueue', hmem', hsame⟩ := List.mem_map.mp hname
      obtain ⟨-, hmatch⟩ := List.mem_filter.mp hmem'
      rw [hsame, ← (hok.owned cqueue hmem qinstance hin).1] at hmatch
      exact ⟨⟨cqueue, hmem, hin⟩, hmatch⟩
    · cases hname
  · rintro ⟨⟨cqueue, hmem, hin⟩, hmatch⟩
    rw [(hok.owned cqueue hmem qinstance hin).1] at hmatch
    rcases hpattern with rfl | ⟨-, hnone⟩
    · exact ⟨cqueue.name, List.mem_map_of_mem (List.mem_filter.mpr ⟨hmem, hmatch⟩),
        (mem_qinstanceList hok).mpr ⟨cqueue, hmem, rfl, hin⟩⟩
    · have hnot := List.all_eq_true.mp hnone cqueue hmem
      rw [hmatch] at hnot
      cases hnot

/-- A host part stands for a host. -/
def HostPart (s : Cluster) (expr : List Char) (host : String) : Prop :=
  if expr.head? = some '@' then
    expr.tail ≠ [] ∧ ∃ hgroup ∈ s.hgroups, s.matchesHost expr hgroup.name.toList = true ∧
      Covers s hgroup.name host
  else expr ≠ [] ∧ s.matchesHost (s.uniqueHost expr) host.toList = true

/-- A reference stands for a queue instance. -/
def Selects (s : Cluster) (ref : String) (qinstance : QInstance) : Prop :=
  s.matchesStr (cutAt ref.toList).1 qinstance.qname.toList = true ∧
    ∀ expr, (cutAt ref.toList).2 = some expr → HostPart s expr qinstance.qhostname

theorem evaluates_name {cfg : HostConfig} {fnmatch : List Char → List Char → ℤ} {type : ℕ}
    {expr value : EvalExpression.CString} (hvalue : value.chars.length < maxStringSize)
    (hexpr : expr.chars.length < maxStringSize) (his : sgeIsExpression expr.chars = false) :
    Evaluates fnmatch (sgeHostmatch cfg fnmatch) (sgeHostcmp cfg) type expr value
      (matchPattern fnmatch (sgeHostmatch cfg fnmatch) (sgeHostcmp cfg) type value.chars
        ⟨expr.chars, expr.chars, false, .end, .exp, []⟩ false) := by
  refine ⟨[], 0, fun n _ => ?_⟩
  rw [sgeEvalExpression, if_neg (not_le.mpr hvalue), if_neg (not_le.mpr hexpr)]
  simp only [his, Bool.false_eq_true, if_false]

theorem matchesStr_nil (hok : s.Ok) {cqueue : Cqueue} (hmem : cqueue ∈ s.cqueueList) :
    s.matchesStr [] cqueue.name.toList = false := by
  obtain ⟨hne, hnul⟩ := hok.names cqueue hmem
  have heval := s.evaluator.evaluates typeStr ⟨[], by simp⟩ ⟨cqueue.name.toList, hnul⟩
  rw [Cluster.matchesStr, decide_eq_false_iff_not]
  by_cases hlong : maxStringSize ≤ cqueue.name.toList.length
  · rw [heval.unique (evaluates_long (.inl hlong))]
    decide
  · have hlist : [] ≠ cqueue.name.toList := fun h => hne (String.toList_eq_nil_iff.mp h.symm)
    rw [heval.unique (evaluates_name (not_le.mp hlong) (by decide) (by decide))]
    simp [matchPattern, typeStr, strcmp, hlist]
    split_ifs <;> simp

theorem splitOf_cqueueName {expr : Option (List Char)} :
    (splitOf before expr).2.cqueueName = before := by
  unfold splitOf
  split
  · rfl
  · rfl
  · split_ifs <;> rfl

theorem resolveReference_spec (hok : s.Ok) (hfuel : refBound s.hgroups ≤ fuel)
    (allocated : Bool) :
    ∃ found allocated', resolveReference s fuel allocated name = some (found, allocated') ∧
      ∀ qinstance, qinstance ∈ found ↔
        (∃ cqueue ∈ s.cqueueList, qinstance ∈ cqueue.qinstances) ∧ Selects s name qinstance := by
  rw [resolveReference, cqueueNameSplit_eq]
  rcases hcut : cutAt name.toList with ⟨before, expr⟩
  simp only [splitOf_cqueueName, Selects, hcut]
  set allocated' := allocated || decide (before ≠ []) with hallocated
  set pattern := if allocated' = true then some before else none with hdef
  have hpattern : pattern = some before ∨ pattern = none ∧
      s.cqueueList.all fun cqueue => !(s.matchesStr before cqueue.name.toList) := by
    by_cases h : allocated' = true
    · exact .inl (if_pos h)
    · have hempty : before = [] := by
        by_contra hne
        exact h (by rw [hallocated, decide_eq_true hne, Bool.or_true])
      refine .inr ⟨if_neg h, List.all_eq_true.mpr fun cqueue hmem => ?_⟩
      rw [hempty, matchesStr_nil hok hmem]
      rfl
  have hmatching := fun qinstance => @mem_matching s qinstance before pattern hok hpattern
  have hwith : ∀ (qinstance : QInstance) (P : Prop),
      (∃ name ∈ cqueueListFindAllMatchingReferences s pattern,
        qinstance ∈ s.qinstanceList name ∧ P) ↔
      (∃ cqueue ∈ s.cqueueList, qinstance ∈ cqueue.qinstances) ∧
        s.matchesStr before qinstance.qname.toList = true ∧ P := by
    intro qinstance P
    rw [← and_assoc, ← hmatching]
    simp only [← and_assoc, exists_and_right]
  rcases expr with _ | _ | ⟨c, expr⟩
  · refine ⟨_, _, rfl, fun qinstance => ?_⟩
    rw [List.mem_flatMap, hmatching]
    simp
  · refine ⟨_, _, rfl, fun qinstance => ?_⟩
    simp [HostPart]
  · by_cases hc : c = '@'
    · subst hc
      by_cases hexpr : expr = []
      · refine ⟨[], allocated', by simp [splitOf, hexpr], fun qinstance => ?_⟩
        simp [HostPart, hexpr]
      · obtain ⟨hosts, hhosts, hkeys⟩ := @findMatchingAndResolve_spec s fuel hok hfuel
          ('@' :: expr) s.hgroups fun _ => id
        refine ⟨qrefListResolveQdomainNames s (cqueueListFindAllMatchingReferences s pattern) hosts,
          allocated', by simp [splitOf, hexpr, hhosts], fun qinstance => ?_⟩
        have hdomain : HostPart s ('@' :: expr) qinstance.qhostname ↔
            ∃ hostname ∈ hosts, s.cfg.hostKey hostname = s.cfg.hostKey qinstance.qhostname := by
          rw [HostPart, if_pos List.head?_cons, ← hkeys]
          exact and_iff_right hexpr
        simp only [qrefListResolveQdomainNames, List.mem_flatMap, List.mem_filterMap,
          find_qinstance hok, Option.some.injEq, forall_eq', hdomain]
        rw [← hwith]
        refine exists_congr fun cqName => and_congr_right fun _ => ?_
        constructor
        · rintro ⟨hostname, hmem, hq, hkey⟩
          exact ⟨hq, hostname, hmem, hkey.symm⟩
        · rintro ⟨hq, hostname, hmem, hkey⟩
          exact ⟨hostname, hmem, hq, hkey.symm⟩
    · refine ⟨(cqueueListFindAllMatchingReferences s pattern).flatMap fun cqName =>
          qinstanceListFindMatching s (s.qinstanceList cqName) (String.ofList (c :: expr)),
        allocated', by simp [splitOf, hc], fun qinstance => ?_⟩
      have hhost : HostPart s (c :: expr) qinstance.qhostname ↔
          s.matchesHost (s.uniqueHost (c :: expr)) qinstance.qhostname.toList = true := by
        rw [HostPart, if_neg (by simpa using hc)]
        exact and_iff_right (List.cons_ne_nil c expr)
      simp only [List.mem_flatMap, qinstanceListFindMatching, List.mem_filter,
        Option.some.injEq, forall_eq', hhost]
      rw [← hwith]
      rfl

theorem qrefListResolve_spec (hok : s.Ok) (hfuel : refBound s.hgroups ≤ fuel) (allocated : Bool) :
    ∃ found, qrefListResolve s fuel allocated list = some found ∧
      ∀ qinstance, qinstance ∈ found ↔
        (∃ cqueue ∈ s.cqueueList, qinstance ∈ cqueue.qinstances) ∧
          ∃ ref ∈ list, Selects s ref qinstance := by
  induction list generalizing allocated with
  | nil => exact ⟨[], rfl, by simp⟩
  | cons ref list ih =>
      obtain ⟨found, allocated', hfound, hmem⟩ :=
        @resolveReference_spec s fuel ref hok hfuel allocated
      obtain ⟨rest, hrest, hmem'⟩ := ih allocated'
      refine ⟨found ++ rest, by simp [qrefListResolve, hfound, hrest], fun qinstance => ?_⟩
      rw [List.mem_append, hmem, hmem', ← and_or_left, List.exists_mem_cons_iff]

end Resolution

section Agreement
variable {s : Cluster} {fuel : ℕ} {list : List String} {ref cqname host : String}

theorem hostPart_rejected (hok : s.Ok) (hread : ReadsAlike s list)
    (hfuel : refBound s.hgroups + 2 ≤ fuel) (href : ref ∈ list) {expr : List Char}
    (hcut : (cutAt ref.toList).2 = some expr) :
    ∃ b, qrefListHostRejected s fuel expr host.toList = some b ∧
      (s.HasInstance host → (b = false ↔ HostPart s expr host)) := by
  by_cases hhead : expr.head? = some '@'
  · obtain ⟨expr, rfl⟩ : ∃ tail, expr = '@' :: tail := by
      cases expr with
      | nil => cases hhead
      | cons c tail => exact ⟨tail, by rw [Option.some.inj hhead]⟩
    obtain ⟨b, hb, hiff⟩ := @domain_rejected s fuel host hok hread.names expr hfuel
    refine ⟨b, hb, fun hhost => ?_⟩
    rw [hiff hhost, HostPart, if_pos hhead, List.tail_cons]
    constructor
    · rintro ⟨hgroup, hmem, hmatch, hcovers⟩
      obtain ⟨hne, hmatch'⟩ := (hread.groupExpressions ref href expr hcut hgroup hmem).mp hmatch
      exact ⟨hne, hgroup, hmem, hmatch', hcovers⟩
    · rintro ⟨hne, hgroup, hmem, hmatch, hcovers⟩
      exact ⟨hgroup, hmem,
        (hread.groupExpressions ref href expr hcut hgroup hmem).mpr ⟨hne, hmatch⟩, hcovers⟩
  · obtain ⟨fuel, rfl⟩ := Nat.exists_eq_add_of_le' (show 1 ≤ fuel by omega)
    rw [qrefListHostRejected, if_neg hhead, HostPart, if_neg hhead]
    refine ⟨_, rfl, fun hhost => ?_⟩
    rw [Bool.not_eq_false', hread.hostExpressions ref href expr hcut hhead host hhost]

theorem qrefCqRejected_spec (hok : s.Ok) (hread : ReadsAlike s list)
    (hfuel : refBound s.hgroups + 2 ≤ fuel) (href : ref ∈ list) :
    ∃ b, qrefCqRejected s fuel cqname (some host) ref = some b ∧
      (s.HasInstance host → (b = false ↔ Selects s ref ⟨cqname, host⟩)) := by
  rw [qrefCqRejected, Selects]
  rcases hcut : cutAt ref.toList with ⟨before, _ | expr⟩
  · exact ⟨_, rfl, fun _ => by simp⟩
  · obtain ⟨b, hb, hiff⟩ :=
      @hostPart_rejected s fuel list ref host hok hread hfuel href expr (by rw [hcut])
    by_cases hmatch : s.matchesStr before cqname.toList = true
    · exact ⟨b, by simpa [hmatch] using hb, fun hhost => by simp [hiff hhost, hmatch]⟩
    · exact ⟨true, by simp [hmatch], fun _ => by simp [hmatch]⟩

/-- What a reference does not reject is rejected neither without the host nor by its host part. -/
theorem qrefCqRejected_parts (h : qrefCqRejected s fuel cqname (some host) ref = some false) :
    qrefCqRejected s fuel cqname none ref = some false ∧
      qrefEhRejected s fuel host ref = some false := by
  rw [qrefCqRejected] at h ⊢
  rw [qrefEhRejected]
  rcases hcut : cutAt ref.toList with ⟨before, _ | expr⟩
  · simp only [hcut] at h
    exact ⟨h, rfl⟩
  · by_cases hmatch : s.matchesStr before cqname.toList = true
    · simp only [hcut, hmatch, if_true] at h
      exact ⟨by simp [hmatch], h⟩
    · simp [hcut, hmatch] at h

end Agreement

section Groups
variable {cfg : HostConfig} {fnmatch : List Char → List Char → ℤ} {s : Cluster}
variable {expr value : EvalExpression.CString}

theorem exists_evaluates (cfg : HostConfig) (fnmatch : List Char → List Char → ℤ) (type : ℕ)
    (expr value : EvalExpression.CString) :
    ∃ result, Evaluates fnmatch (sgeHostmatch cfg fnmatch) (sgeHostcmp cfg) type expr value
      result := by
  by_cases hlong : maxStringSize ≤ value.chars.length ∨ maxStringSize ≤ expr.chars.length
  · exact ⟨-1, evaluates_long hlong⟩
  obtain ⟨hvalue, hexpr⟩ := not_or.mp hlong
  by_cases his : sgeIsExpression expr.chars = true
  · obtain ⟨hrefused, hdenotes⟩ := sgeEvalExpression_denotes fnmatch (sgeHostmatch cfg fnmatch)
      (sgeHostcmp cfg) type expr value his
    by_cases h : ∃ e, EvalExpression.Denotes expr.chars e
    · obtain ⟨e, he⟩ := h
      exact ⟨_, hdenotes (not_le.mp hvalue) (not_le.mp hexpr) e he⟩
    · exact ⟨-1, hrefused.mpr (.inr (.inr h))⟩
  · rw [Bool.not_eq_true] at his
    exact ⟨_, evaluates_name (not_le.mp hvalue) (not_le.mp hexpr) his⟩

/-- The results of `sge_eval_expression`, which always has one. -/
noncomputable def evaluatorOf (cfg : HostConfig) (fnmatch : List Char → List Char → ℤ) :
    Evaluator cfg fnmatch where
  eval type expr value :=
    if h : '\x00' ∉ expr ∧ '\x00' ∉ value then
      (exists_evaluates cfg fnmatch type ⟨expr, h.1⟩ ⟨value, h.2⟩).choose
    else -1
  evaluates type expr value := by
    rw [dif_pos ⟨expr.noNul, value.noNul⟩]
    exact (exists_evaluates cfg fnmatch type expr value).choose_spec

/-- A short name that is no expression matches the names of the same host. -/
theorem matchesHost_name (hexpr : expr.chars.length < maxStringSize)
    (hvalue : value.chars.length < maxStringSize) (his : sgeIsExpression expr.chars = false) :
    s.matchesHost expr.chars value.chars = true ↔
      s.cfg.hostKey (String.ofList expr.chars) = s.cfg.hostKey (String.ofList value.chars) := by
  have heval := s.evaluator.evaluates typeHost expr value
  rw [Cluster.matchesHost, decide_eq_true_eq, heval.unique (evaluates_name hvalue hexpr his),
    ← sgeHostcmp_iff]
  simp only [matchPattern, typeHost, typeStr, typeCstr, typeRestr, sgeHostcmp]
  split_ifs <;> simp_all

/-- Host names are compared as they are. -/
def plainNames : HostConfig := ⟨false, none⟩

/-- The host group `@all` stands for `@b`, which stands for the host `h1`. -/
def nestedGroups : List HGroup :=
  [⟨"@b", HrefList.copyList plainNames ["h1"]⟩, ⟨"@all", HrefList.copyList plainNames ["@b"]⟩]

/-- One queue instance. -/
noncomputable def oneInstance : Cluster where
  cfg := plainNames
  fnmatch := starResult
  evaluator := evaluatorOf plainNames starResult
  getuniquehostname name := some name
  cqueueList := [⟨"q", [⟨"q", "h1"⟩]⟩]
  hgroupList := some nestedGroups

theorem oneInstance_refs {a b : List Char} (h : Refs plainNames nestedGroups a b) :
    a = "@all".toList ∧ b = "@b".toList := by
  obtain ⟨hgroup, hmem, rfl, href, hhref, hgroup', rfl⟩ := h
  simp only [nestedGroups, List.mem_cons, List.not_mem_nil, or_false] at hmem
  rcases hmem with rfl | rfl
  · simp only [HrefList.copyList, List.mem_singleton] at hhref
    subst hhref
    exact absurd hgroup' (by decide)
  · simp only [HrefList.copyList, List.mem_singleton] at hhref
    subst hhref
    exact ⟨by decide, by decide⟩

theorem oneInstance_ok : oneInstance.Ok where
  master := ⟨by decide, by decide⟩
  acyclic a h := by
    obtain ⟨b, hab, -⟩ := Relation.TransGen.head'_iff.mp h
    obtain ⟨c, -, hca⟩ := Relation.TransGen.tail'_iff.mp h
    exact absurd ((oneInstance_refs hab).1.symm.trans (oneInstance_refs hca).2) (by decide)
  names := by decide
  distinct := by decide
  owned := by decide
  hosts := by decide

theorem oneInstance_hasInstance {host : String} (h : oneInstance.HasInstance host) :
    host = "h1" := by
  obtain ⟨cqueue, hmem, qinstance, hq, rfl⟩ := h
  simp only [oneInstance, List.mem_singleton] at hmem
  subst hmem
  simp only [List.mem_singleton] at hq
  rw [hq]

/-- The names that the references below are about. -/
def shortNames : List (List Char) := ["all", "b", "@all", "@b", "h1"].map String.toList

theorem shortNames_match {name value : List Char} (hname : name ∈ shortNames)
    (hvalue : value ∈ shortNames) : oneInstance.matchesHost name value = true ↔
      plainNames.hostKey (String.ofList name) = plainNames.hostKey (String.ofList value) := by
  have hplain : ∀ x ∈ shortNames,
      x.length < maxStringSize ∧ '\x00' ∉ x ∧ sgeIsExpression x = false := by decide
  obtain ⟨hlen, hnul, his⟩ := hplain name hname
  obtain ⟨hlen', hnul', -⟩ := hplain value hvalue
  exact @matchesHost_name oneInstance ⟨name, hnul⟩ ⟨value, hnul'⟩ hlen hlen' his

theorem oneInstance_names : NamesAlike oneInstance where
  groups hgroup hmem name hname hgroupName hgroup' hmem' := by
    have hnames : ∀ hgroup ∈ nestedGroups, ∀ name ∈ hgroup.hostList.elems,
        isHgroupName name = true → ∀ hgroup' ∈ nestedGroups,
          name.toList.tail ∈ shortNames ∧ hgroup'.name.toList.tail ∈ shortNames ∧
          (plainNames.hostKey (String.ofList name.toList.tail) =
              plainNames.hostKey (String.ofList hgroup'.name.toList.tail) ↔
            plainNames.hostKey name = plainNames.hostKey hgroup'.name) := by decide
    obtain ⟨hin, hin', hsame⟩ := hnames hgroup hmem name hname hgroupName hgroup' hmem'
    rw [shortNames_match hin hin']
    exact hsame
  hosts hgroup hmem name hname hhostName host hhost := by
    have hnames : ∀ hgroup ∈ nestedGroups, ∀ name ∈ hgroup.hostList.elems,
        isHgroupName name = false → name = "h1" := by decide
    rw [oneInstance_hasInstance hhost, hnames hgroup hmem name hname hhostName,
      shortNames_match (by decide) (by decide)]
    decide

theorem oneInstance_readsAlike : ReadsAlike oneInstance ["q@@all", "q@h1"] where
  groupExpressions ref href expr hcut hgroup hmem := by
    have hexpr : expr = "all".toList := by
      simp only [List.mem_cons, List.not_mem_nil, or_false] at href
      rcases href with rfl | rfl
      · rw [show (cutAt "q@@all".toList).2 = some ('@' :: "all".toList) by decide] at hcut
        simpa using hcut.symm
      · rw [show (cutAt "q@h1".toList).2 = some "h1".toList by decide] at hcut
        simp at hcut
    have hnames : ∀ hgroup ∈ nestedGroups, hgroup.name.toList.tail ∈ shortNames ∧
        hgroup.name.toList ∈ shortNames ∧
        (plainNames.hostKey "all" = plainNames.hostKey (String.ofList hgroup.name.toList.tail) ↔
          plainNames.hostKey "@all" = plainNames.hostKey hgroup.name) := by decide
    obtain ⟨hin, hin', hsame⟩ := hnames hgroup hmem
    rw [hexpr, shortNames_match (by decide) hin, shortNames_match (by decide) hin']
    simpa using hsame
  hostExpressions ref href expr hcut hhead host hhost := by
    have hexpr : expr = "h1".toList := by
      simp only [List.mem_cons, List.not_mem_nil, or_false] at href
      rcases href with rfl | rfl
      · rw [show (cutAt "q@@all".toList).2 = some ('@' :: "all".toList) by decide] at hcut
        rw [← Option.some.inj hcut] at hhead
        exact absurd rfl hhead
      · rw [show (cutAt "q@h1".toList).2 = some "h1".toList by decide] at hcut
        exact (Option.some.inj hcut).symm
    have hunique : oneInstance.uniqueHost "h1".toList = "h1".toList := by decide
    rw [oneInstance_hasInstance hhost, hexpr, hunique, shortNames_match (by decide) (by decide)]
    decide
  names := oneInstance_names

theorem either_denotes {a b : List Char} (ha : a ≠ []) (hb : b ≠ [])
    (hplain : ∀ c ∈ a, Plain c) (hplain' : ∀ c ∈ b, Plain c) :
    EvalExpression.Denotes (a ++ '|' :: b) (.or (.pattern a) (.pattern b)) := by
  have hlexes : Lexes (b ++ []) [.pattern b] := .pattern b hb hplain' (by simp) .nil
  rw [List.append_nil] at hlexes
  exact ⟨_, .pattern a ha hplain (by simp [Plain]) (.op .or hlexes),
    .or (.single (.simple (.pattern a))) (.simple (.pattern b))⟩

theorem matchesHost_denotes {e : Expression} (hexpr : expr.chars.length < maxStringSize)
    (hvalue : value.chars.length < maxStringSize) (his : sgeIsExpression expr.chars = true)
    (he : EvalExpression.Denotes expr.chars e) :
    s.matchesHost expr.chars value.chars = e.eval (patternMatches s.fnmatch
      (sgeHostmatch s.cfg s.fnmatch) (sgeHostcmp s.cfg) typeHost (uncase typeHost value.chars)) := by
  have heval := (sgeEvalExpression_denotes s.fnmatch (sgeHostmatch s.cfg s.fnmatch)
    (sgeHostcmp s.cfg) typeHost expr value his).2 hvalue hexpr e he
  rw [Cluster.matchesHost, (s.evaluator.evaluates typeHost expr value).unique heval,
    Bool.eq_iff_iff, decide_eq_true_eq, result_eq_zero]

end Groups

end GridEngine.QueueReferences
