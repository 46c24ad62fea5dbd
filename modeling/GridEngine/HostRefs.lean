import GridEngine.RqsFilters

/-!
# Host references

A host group, like the host list of a cluster queue, is a list of names of hosts and of other host
groups; the first character tells the two apart. Names are compared through `sge_hostcpy` and
without case. A list that the source creates on demand, or frees when it is empty, is a plain
list; only the master list of the host groups may be missing as a whole.
-/

namespace GridEngine

/-- The bootstrap parameters behind the comparison of host names. -/
structure HostConfig where
  ignoreFqdn : Bool
  defaultDomain : Option String

namespace HostConfig

/-- `sge_hostcpy`. -/
def sgeHostcpy (cfg : HostConfig) (raw : String) : String :=
  if isHgroupName raw then raw
  else if cfg.ignoreFqdn then String.ofList (raw.toList.takeWhile (· ≠ '.'))
  else match cfg.defaultDomain with
    | none => raw
    | some domain =>
        if domain.toList.map Char.toLower = "none".toList ∨ '.' ∈ raw.toList then raw
        else String.ofList (raw.toList ++ '.' :: domain.toList)

/-- What two spellings of one name have in common. -/
def hostKey (cfg : HostConfig) (name : String) : List Char :=
  (cfg.sgeHostcpy name).toList.map Char.toLower

/-- `sge_hostcmp` for equality. -/
def sgeHostcmp (cfg : HostConfig) (h1 h2 : String) : Bool :=
  cfg.hostKey h1 = cfg.hostKey h2

end HostConfig

/-- A list of `HR_Type` elements with the keys in the hash table of `HR_name`. The table is made
for unique names: taking an element out also takes out the key of its equals. -/
structure HrefList where
  elems : List String
  hashed : List (List Char)
deriving DecidableEq, Repr

/-- An `HGRP_Type` element. -/
structure HGroup where
  name : String
  hostList : HrefList
deriving DecidableEq, Repr

/-- A list of hosts and a list of host groups. -/
structure UsedRefs where
  hosts : List String
  groups : List String
deriving DecidableEq, Repr

variable (cfg : HostConfig)

namespace HrefList

/-- `lCopyList`, which builds the hash table anew. -/
def copyList (elems : List String) : HrefList := ⟨elems, elems.map cfg.hostKey⟩

/-- `lAppendElem`. -/
def appendElem (l : HrefList) (name : String) : HrefList :=
  ⟨l.elems ++ [name], cfg.hostKey name :: l.hashed⟩

/-- `lDechainElem` of the first element with this name. -/
def dechainElem (l : HrefList) (name : String) : HrefList :=
  ⟨l.elems.eraseP fun href => cfg.sgeHostcmp href name,
    l.hashed.filter fun key => key ≠ cfg.hostKey name⟩

/-- `href_list_has_member`. -/
def hasMember (l : HrefList) (name : String) : Bool := decide (cfg.hostKey name ∈ l.hashed)

end HrefList

/-- `href_list_has_member` for a list that elements were only added to. -/
def hrefListHasMember (thisList : List String) (name : String) : Bool :=
  thisList.any fun href => cfg.sgeHostcmp href name

/-- `href_list_add`. -/
def hrefListAdd (thisList : List String) (name : String) : List String :=
  if hrefListHasMember cfg thisList name then thisList else thisList ++ [name]

/-- Adds a name to the list of its kind. -/
def addRef (used : UsedRefs) (name : String) : UsedRefs :=
  if isHgroupName name then
    { used with groups := hrefListAdd cfg used.groups name }
  else
    { used with hosts := hrefListAdd cfg used.hosts name }

/-- `hgroup_list_locate`. -/
def hgroupListLocate (masterList : List HGroup) (name : String) : Option HGroup :=
  masterList.find? fun hgroup => cfg.sgeHostcmp hgroup.name name

/-- The body of `href_list_find_references`. -/
def findReference (masterList : List HGroup) (used : UsedRefs) (name : String) : UsedRefs :=
  if isHgroupName name then
    match hgroupListLocate cfg masterList name with
    | some hgroup => hgroup.hostList.elems.foldl (addRef cfg) used
    | none => used
  else addRef cfg used name

/-- `href_list_find_all_references`; `none` is the end of the fuel. -/
def hrefListFindAllReferences : ℕ → List String → Option (List HGroup) → UsedRefs →
    Option UsedRefs
  | 0, _, _, _ => none
  | _ + 1, _, none, used => some used
  | fuel + 1, thisList, some masterList, used =>
      if thisList = [] then some used
      else
        let direct := thisList.foldl (findReference cfg masterList) used
        if direct.groups = [] then some direct
        else (hrefListFindAllReferences fuel direct.groups (some masterList) ⟨[], []⟩).map
          fun sub => ⟨direct.hosts ++ sub.hosts, direct.groups ++ sub.groups⟩

/-- The body of `href_list_find_referencees`. -/
def findReferencees (masterList : Option (List HGroup)) (occupants : List String) (name : String) :
    List String :=
  if isHgroupName name then
    (masterList.getD []).foldl (fun occupants hgroup =>
      if hgroup.hostList.hasMember cfg name then hrefListAdd cfg occupants hgroup.name
      else occupants) occupants
  else occupants

/-- `href_list_find_all_referencees`; `none` is the end of the fuel. -/
def hrefListFindAllReferencees : ℕ → List String → Option (List HGroup) → Option (List String)
  | 0, _, _ => none
  | fuel + 1, thisList, masterList =>
      let direct := thisList.foldl (findReferencees cfg masterList) []
      if direct = [] then some []
      else (hrefListFindAllReferencees fuel direct masterList).map (direct ++ ·)

/-- `href_list_compare` for the names that are missing in the other list. -/
def hrefListCompare (thisList : List String) (missing : String → Bool) : UsedRefs :=
  thisList.foldl (fun used name => if missing name then addRef cfg used name else used) ⟨[], []⟩

/-- `hgroup_list_exists`, which holds when there is no master list. -/
def hgroupListExists (masterList : Option (List HGroup)) (hrefList : List String) : Bool :=
  match masterList with
  | none => true
  | some masterList => hrefList.all fun name =>
      !isHgroupName name || (hgroupListLocate cfg masterList name).isSome

/-- `href_list_remove_existing`: one element of each name in `list` goes, the last one, and with
it the key of its equals. -/
def hrefListRemoveExisting (thisList : HrefList) (list : List String) : HrefList :=
  list.foldl (fun thisList name =>
    if thisList.hasMember cfg name then
      ⟨(thisList.elems.reverse.eraseP fun href => cfg.sgeHostcmp href name).reverse,
        (thisList.dechainElem cfg name).hashed⟩
    else thisList) thisList

/-- `href_list_resolve_hostnames` without `ignore_errors`. -/
def hrefListResolveHostnames (getuniquehostname : String → Option String) (thisList : List String) :
    Option (List String) :=
  thisList.mapM fun name => if isHgroupName name then some name else getuniquehostname name

/-- The differences of two host lists, with the ones of the groups resolved. -/
structure HostDiff where
  addHosts : List String
  remHosts : List String
  addGroups : List String
deriving DecidableEq, Repr

/-- `href_list_find_effective_diff`. -/
def hrefListFindEffectiveDiff (fuel : ℕ) (masterList : Option (List HGroup))
    (add rem : UsedRefs) : Option HostDiff := do
  let addUsed ← hrefListFindAllReferences cfg fuel add.groups masterList ⟨add.hosts, []⟩
  let remUsed ← hrefListFindAllReferences cfg fuel rem.groups masterList ⟨rem.hosts, []⟩
  if addUsed.hosts ≠ [] ∧ remUsed.hosts ≠ [] then
    return ⟨(hrefListCompare cfg addUsed.hosts fun name =>
        !hrefListHasMember cfg remUsed.hosts name).hosts,
      (hrefListCompare cfg remUsed.hosts fun name =>
        !hrefListHasMember cfg addUsed.hosts name).hosts, add.groups⟩
  else
    return ⟨addUsed.hosts, remUsed.hosts, add.groups⟩

/-- The part of `hgroup_mod_hostlist` and `cqueue_mod_hostlist` up to the resolution of the added
hosts. The inner option is the rejection of the request. -/
def hostlistDiff (getuniquehostname : String → Option String) (fuel : ℕ)
    (masterList : Option (List HGroup)) (oldHrefList : List String) (hrefList : HrefList) :
    Option (Option HostDiff) :=
  let add := hrefListCompare cfg hrefList.elems fun name =>
    !hrefListHasMember cfg oldHrefList name
  let rem := hrefListCompare cfg oldHrefList fun name => !hrefList.hasMember cfg name
  if hgroupListExists cfg masterList add.groups then
    (hrefListFindEffectiveDiff cfg fuel masterList add rem).map fun diff =>
      (hrefListResolveHostnames getuniquehostname diff.addHosts).map fun addHosts =>
        { diff with addHosts := addHosts }
  else some none

/-- The hosts to add and to remove. -/
structure SettledDiff where
  addHosts : HrefList
  remHosts : HrefList
deriving DecidableEq, Repr

/-- The last part of both functions: added hosts that were reached before and removed hosts that
are still reached are taken out. -/
def settleDiff (fuel : ℕ) (masterList : Option (List HGroup)) (oldHrefList hrefList : List String)
    (diff : HostDiff) : Option SettledDiff := do
  let old ← hrefListFindAllReferences cfg fuel oldHrefList masterList ⟨[], []⟩
  let new ← hrefListFindAllReferences cfg fuel hrefList masterList ⟨[], []⟩
  return ⟨hrefListRemoveExisting cfg (.copyList cfg diff.addHosts) old.hosts,
    hrefListRemoveExisting cfg (.copyList cfg diff.remHosts) new.hosts⟩

/-- `cqueue_mod_hostlist` with the host list that `attr_mod_sub_list` leaves. -/
def cqueueModHostlist (getuniquehostname : String → Option String) (fuel : ℕ)
    (masterList : Option (List HGroup)) (oldHrefList : List String) (hrefList : HrefList) :
    Option (Option SettledDiff) := do
  match ← hostlistDiff cfg getuniquehostname fuel masterList oldHrefList hrefList with
  | none => return none
  | some diff => (settleDiff cfg fuel masterList oldHrefList hrefList.elems diff).map some

/-- `hgroup_mod_hostlist` with the host list that `attr_mod_sub_list` leaves; it delivers the
hosts to add and to remove and `occupant_groups`. -/
def hgroupModHostlist (getuniquehostname : String → Option String) (fuel : ℕ)
    (masterList : Option (List HGroup)) (name : String) (oldHrefList : List String)
    (hrefList : HrefList) : Option (Option (SettledDiff × List String)) := do
  match ← hostlistDiff cfg getuniquehostname fuel masterList oldHrefList hrefList with
  | none => return none
  | some diff =>
      let referencees ← hrefListFindAllReferencees cfg fuel [name] masterList
      let occupantGroups := hrefListAdd cfg referencees name
      if diff.addGroups.any (hrefListHasMember cfg occupantGroups) then return none
      else
        let settled ← settleDiff cfg fuel masterList oldHrefList hrefList.elems diff
        return some (settled, occupantGroups)

/-- The `sub_command` of a request. -/
inductive SubCommand
  | set
  | change
  | append
  | remove
deriving DecidableEq, Repr

/-- The loop of `attr_mod_sub_list` over the reduced list: the elements that have no equal in the
full list, and the full list. An equal name is no difference, so `SGE_GDI_CHANGE` exchanges
nothing. -/
def matchReduced (subCommand : SubCommand) (fullSublist : HrefList) :
    List String → List String × HrefList
  | [] => ([], fullSublist)
  | name :: rest =>
      if hrefListHasMember cfg fullSublist.elems name then
        matchReduced subCommand
          (if subCommand = .remove then fullSublist.dechainElem cfg name else fullSublist) rest
      else
        let (unmatched, full) := matchReduced subCommand fullSublist rest
        (name :: unmatched, full)

/-- `attr_mod_sub_list` for a host list, with its return value. Appending an element that is
already there is refused. -/
def attrModSubList (subCommand : SubCommand) (fullSublist : HrefList)
    (reducedSublist : List String) : Bool × HrefList :=
  match subCommand with
  | .set => (true, .copyList cfg reducedSublist)
  | .remove => (true, (matchReduced cfg .remove fullSublist reducedSublist).2)
  | .change => (true, (matchReduced cfg .change fullSublist reducedSublist).1.foldl
      (HrefList.appendElem cfg) fullSublist)
  | .append =>
      if reducedSublist.any (hrefListHasMember cfg fullSublist.elems) then (false, fullSublist)
      else (true, reducedSublist.foldl (HrefList.appendElem cfg) fullSublist)

end GridEngine

/-!
## Requests on host groups

`hgroup_mod`, `hgroup_del` and `cqueue_mod`, with the checks of the generic request code before
them and the replacement in the master list after them. What a request does after its host list
was accepted (queue instances, missing hosts, spooling) may still reject it.
-/

namespace GridEngine

/-- The host list of a `CQ_Type` element. -/
structure CqueueHosts where
  name : String
  hostlist : HrefList
deriving DecidableEq, Repr

/-- The master lists. There is no list of host groups before the first one, unless the spooling
method makes one. -/
structure HostObjects where
  hgroups : Option (List HGroup)
  cqueues : List CqueueHosts
deriving DecidableEq, Repr

/-- A host list in a request. -/
structure HostlistChange where
  subCommand : SubCommand
  reduced : List String
deriving DecidableEq, Repr

/-- The requests. `later` says that the steps after the host list succeed, `elsewhere` that other
objects refer to the host group. -/
inductive HostRequest
  | hgroupMod (add : Bool) (name : String) (change : Option HostlistChange) (later : Bool)
  | hgroupDel (name : String) (elsewhere spooled : Bool)
  | cqueueMod (add : Bool) (name : String) (change : Option HostlistChange) (later : Bool)
  | cqueueDel (name : String) (later : Bool)

variable (cfg : HostConfig) (getuniquehostname : String → Option String)
variable (verifyStrKey : String → Bool) (fuel : ℕ)

/-- `hgroup_check_name`. -/
def hgroupCheckName (name : String) : Bool :=
  isHgroupName name && verifyStrKey (String.ofList (name.toList.drop 1))

/-- `href_list_resolve_hostnames` with `ignore_errors`. -/
def resolveReduced (reduced : List String) : List String :=
  reduced.map fun name => if isHgroupName name then name else (getuniquehostname name).getD name

/-- Replaces the element of the same name in the master list. -/
def storeHgroup (s : HostObjects) (hgroup : HGroup) : HostObjects :=
  { s with
    hgroups := some ((s.hgroups.getD []).eraseP (fun g => cfg.sgeHostcmp g.name hgroup.name) ++
      [hgroup]) }

def storeCqueue (s : HostObjects) (cqueue : CqueueHosts) : HostObjects :=
  { s with
    cqueues := s.cqueues.eraseP (fun cq => decide (cq.name = cqueue.name)) ++ [cqueue] }

/-- The loop of `hgroup_mod` over the cluster queues puts the old element at the end of the master
list when one of them refers to an occupant group. -/
def restoreHgroup (s : HostObjects) (old : Option HGroup) (occupantGroups : List String) :
    HostObjects :=
  match old with
  | some old =>
      if s.cqueues.any (fun cq => occupantGroups.any (cq.hostlist.hasMember cfg)) then
        storeHgroup cfg s old
      else s
  | none => s

/-- A copy of the host list of the old element. -/
def oldElems (old : Option HrefList) : List String := old.elim [] HrefList.elems

def hgroupMod (s : HostObjects) (add : Bool) (name : String) (change : Option HostlistChange)
    (later : Bool) : Option HostObjects :=
  let old := s.hgroups.bind fun masterList => hgroupListLocate cfg masterList name
  let name := old.elim name HGroup.name
  let elems := oldElems (old.map HGroup.hostList)
  if old.isSome = add ∨ (add = true ∧ hgroupCheckName verifyStrKey name = false) then some s
  else
    match change with
    | none => some (if later then storeHgroup cfg s ⟨name, .copyList cfg elems⟩ else s)
    | some change =>
        let hrefList := (attrModSubList cfg change.subCommand (.copyList cfg elems)
          (resolveReduced getuniquehostname change.reduced)).2
        (hgroupModHostlist cfg getuniquehostname fuel s.hgroups name elems hrefList).map fun
          | none => s
          | some (_, occupantGroups) =>
              if later then storeHgroup cfg s ⟨name, hrefList⟩
              else restoreHgroup cfg s old occupantGroups

def hgroupDel (s : HostObjects) (name : String) (elsewhere spooled : Bool) : HostObjects :=
  match s.hgroups.bind fun masterList => hgroupListLocate cfg masterList name with
  | none => s
  | some hgroup =>
      if findReferencees cfg s.hgroups [] hgroup.name ≠ [] ∨
          s.cqueues.any (fun cq => cq.hostlist.hasMember cfg hgroup.name) ∨ elsewhere = true ∨
          spooled = false then s
      else { s with hgroups := s.hgroups.map (List.eraseP fun g =>
        cfg.sgeHostcmp g.name hgroup.name) }

def cqueueMod (s : HostObjects) (add : Bool) (name : String) (change : Option HostlistChange)
    (later : Bool) : Option HostObjects :=
  let old := s.cqueues.find? fun cq => cq.name = name
  let elems := oldElems (old.map CqueueHosts.hostlist)
  if old.isSome = add ∨ (add = true ∧ verifyStrKey name = false) then some s
  else
    match change with
    | none => some (if later then storeCqueue s ⟨name, .copyList cfg elems⟩ else s)
    | some change =>
        let (ok, hostlist) := attrModSubList cfg change.subCommand (.copyList cfg elems)
          (resolveReduced getuniquehostname change.reduced)
        if ok then
          (cqueueModHostlist cfg getuniquehostname fuel s.hgroups elems hostlist).map fun
            | none => s
            | some _ => if later then storeCqueue s ⟨name, hostlist⟩ else s
        else some s

def cqueueDel (s : HostObjects) (name : String) (later : Bool) : HostObjects :=
  if later then
    { s with cqueues := s.cqueues.eraseP (fun cq => decide (cq.name = name)) }
  else s

/-- One request; `none` is the end of the fuel. -/
def hostRequest (s : HostObjects) : HostRequest → Option HostObjects
  | .hgroupMod add name change later =>
      hgroupMod cfg getuniquehostname verifyStrKey fuel s add name change later
  | .hgroupDel name elsewhere spooled => some (hgroupDel cfg s name elsewhere spooled)
  | .cqueueMod add name change later =>
      cqueueMod cfg getuniquehostname verifyStrKey fuel s add name change later
  | .cqueueDel name later => some (cqueueDel s name later)

/-- A request whose loops come to an end. -/
def HostStep (s : HostObjects) (e : HostRequest) (s' : HostObjects) : Prop :=
  ∃ fuel, hostRequest cfg getuniquehostname verifyStrKey fuel s e = some s'

end GridEngine
