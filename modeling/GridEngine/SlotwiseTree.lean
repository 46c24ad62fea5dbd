import GridEngine.SubordinateQueues

/-!
# Slotwise subordination

A queue instance suspends single tasks of the queue instances below it. Before the list of
subordinates of a queue instance changes, the tree it belongs to is searched for the new
subordinates. The tree is found by a climb to its root, which follows the last superordinate in the
master list where there are several.
-/

namespace GridEngine

namespace Slotwise

/-- The attributes of a `QU_Type` element that the tree is made of. -/
structure Qinstance where
  qname : String
  qhostname : String
  subordinateList : List Subordinate
deriving DecidableEq, Repr

/-- `CQ_name` and `CQ_qinstances`. -/
structure Cqueue where
  name : String
  qinstances : List Qinstance
deriving DecidableEq, Repr

/-- Why a request does not get through: it is refused, or a recursion has not come to its end. -/
inductive Stop
  | endless
  | refused
deriving DecidableEq, Repr

/-- `ssos_qinstance_t`. -/
structure SsosQinstance where
  depth : ℕ
  seqNo : ℕ
  action : ℕ
  qinstance : Qinstance
  parent : Option Qinstance
deriving DecidableEq, Repr

section Locating

/-- `cqueue_locate_qinstance`. Host names are resolved, so each host has one name. -/
def Cqueue.locateQinstance (cqueue : Cqueue) (hostname : String) : Option Qinstance :=
  cqueue.qinstances.find? fun q => q.qhostname = hostname

/-- `cqueue_list_locate`. -/
def cqueueListLocate (master : List Cqueue) (name : String) : Option Cqueue :=
  master.find? fun cqueue => cqueue.name = name

/-- `cqueue_name_split`: the text before the first `@` and the text behind it. -/
def cqueueNameSplit (fullName : String) : String × String :=
  (String.ofList (fullName.toList.takeWhile (· ≠ '@')),
    String.ofList (fullName.toList.dropWhile (· ≠ '@')).tail)

/-- `cqueue_list_locate_qinstance`. -/
def cqueueListLocateQinstance (master : List Cqueue) (fullName : String) : Option Qinstance :=
  (cqueueListLocate master (cqueueNameSplit fullName).1).bind fun cqueue =>
    cqueue.locateQinstance (cqueueNameSplit fullName).2

/-- The full name of a subordinate on the host of its superordinate. -/
def soFullName (so : Subordinate) (hostname : String) : String :=
  if '@' ∈ so.name.toList then so.name else so.name ++ "@" ++ hostname

end Locating

section Tree
variable (master : List Cqueue)

/-- `get_slotwise_sos_threshold`. -/
def Qinstance.slotwiseSosThreshold (q : Qinstance) : ℕ :=
  (q.subordinateList.head?.map Subordinate.slotsSum).getD 0

/-- Whether the entry of a queue in the subordinate list is slotwise. -/
def Qinstance.mentions (q : Qinstance) (name : String) : Bool :=
  ((q.subordinateList.find? fun so => so.name = name).map Subordinate.slotsSum).getD 0 ≠ 0

/-- A round of the loop of `get_slotwise_sos_tree_root`. -/
def climbStep (climb : Qinstance → Except Stop (Option Qinstance)) (node : Qinstance)
    (root : Option Qinstance) (cqueue : Cqueue) : Except Stop (Option Qinstance) :=
  match cqueue.locateQinstance node.qhostname with
  | some qinstance => if qinstance.mentions node.qname then climb qinstance else .ok root
  | none => .ok root

/-- `get_slotwise_sos_tree_root`. -/
def getSlotwiseSosTreeRoot : ℕ → Qinstance → Except Stop (Option Qinstance)
  | 0, _ => .error .endless
  | fuel + 1, node =>
      master.foldlM (climbStep (getSlotwiseSosTreeRoot fuel) node)
        (if 0 < node.slotwiseSosThreshold then some node else none)

/-- A round of the loop of `get_slotwise_sos_sub_tree_qinstances`. -/
def descendStep (descend : Qinstance → List SsosQinstance → ℕ → Except Stop (List SsosQinstance))
    (qinstance : Qinstance) (depth : ℕ) (tree : List SsosQinstance) (so : Subordinate) :
    Except Stop (List SsosQinstance) :=
  if 0 < so.slotsSum then
    match cqueueListLocateQinstance master (soFullName so qinstance.qhostname) with
    | some sub => descend sub (⟨depth, so.seqNo, so.action, sub, some qinstance⟩ :: tree) (depth + 1)
    | none => .ok tree
  else .ok tree

/-- The loop of `get_slotwise_sos_sub_tree_qinstances`. -/
def descend : ℕ → Qinstance → List SsosQinstance → ℕ → Except Stop (List SsosQinstance)
  | 0, _, _, _ => .error .endless
  | fuel + 1, qinstance, tree, depth =>
      qinstance.subordinateList.foldlM (descendStep master (descend fuel) qinstance depth) tree

/-- `get_slotwise_sos_sub_tree_qinstances` for the root of the tree. -/
def getSlotwiseSosSubTreeQinstances (fuel : ℕ) (root : Qinstance) :
    Except Stop (List SsosQinstance) :=
  descend master fuel root [⟨0, 0, 0, root, none⟩] 1

/-- What `lDiffListStr` leaves of the second list: for each element of the first one, an element of
its name is taken out. -/
def lDiffListStr (old new : List Subordinate) : List Subordinate :=
  old.foldl (fun new so => new.eraseP fun so' => so'.name = so.name) new

/-- `check_new_slotwise_subordinate_tree`. -/
def checkNewSlotwiseSubordinateTree (fuel : ℕ) (qinstance : Qinstance)
    (newSoList : List Subordinate) : Except Stop Bool := do
  match ← getSlotwiseSosTreeRoot master fuel qinstance with
  | some root =>
      if 0 < root.slotwiseSosThreshold then do
        let tree ← getSlotwiseSosSubTreeQinstances master fuel root
        return newSoList.all fun so => tree.all fun ssos => ssos.qinstance.qname ≠ so.name
      else return true
  | none => return true

end Tree

section Requests

/-- The request for a cluster queue. `deleted` says which hosts lose their queue instance, and
`newValue` is the value that `solist_attr_list_find_value` gives for a host. -/
structure Request where
  add : Bool
  name : String
  addHosts : List String
  deleted : String → Bool
  newValue : String → List Subordinate

/-- The characters of `mid_characters` for `KEY_TABLE`. -/
def midCharacters : List Char :=
  ['\n', '\t', '\r', ' ', '/', ':', '\x27', '\x22', '\\', '[', ']', '\x7b', '\x7d', '|', '(', ')', '@',
    '%', ',']

/-- `verify_str_key` for the name of a cluster queue. -/
def verifyStrKey (str : String) : Bool :=
  str.utf8ByteSize ≤ 512 && str.toList.head? ≠ some '.' && str.toList.head? ≠ some '#' &&
    str.toList.all (fun c => c ∉ midCharacters && 32 < c.toNat && c.toNat < 127) &&
    ["none", "all", "template"].all fun keyword => keyword.toList ≠ str.toList.map Char.toLower

variable (master : List Cqueue) (fuel : ℕ) (request : Request)

/-- `cqueue_verify_subordinate_list`. -/
def cqueueVerifySubordinateList (soList : List Subordinate) : Bool :=
  soList.all fun so => so.name ≠ request.name && (cqueueListLocate master so.name).isSome

/-- `qinstance_modify_attribute` for the subordinate list, with its return value. -/
def qinstanceModifyAttribute (qinstance : Qinstance) : Except Stop (Bool × Qinstance) := do
  let newValue := request.newValue qinstance.qhostname
  if qinstance.subordinateList = newValue then return (true, qinstance)
  else if ← checkNewSlotwiseSubordinateTree master fuel qinstance
      (lDiffListStr qinstance.subordinateList newValue) then
    return (true, { qinstance with subordinateList := newValue })
  else return (false, qinstance)

/-- `cqueue_mod_qinstances`: the queue instances that go away are left alone. -/
def cqueueModQinstances (qinstances : List Qinstance) : Except Stop (List Qinstance) :=
  qinstances.mapM fun qinstance =>
    if request.deleted qinstance.qhostname then return qinstance
    else do
      let (ret, qinstance) ← qinstanceModifyAttribute master fuel request qinstance
      if ret then return qinstance else throw .refused

/-- `qinstance_create`: the return value of `qinstance_modify_attribute` is not looked at. -/
def qinstanceCreate (hostname : String) : Except Stop Qinstance := do
  return (← qinstanceModifyAttribute master fuel request ⟨request.name, hostname, []⟩).2

/-- `cqueue_add_qinstances`: the new queue instances. -/
def cqueueAddQinstances (qinstances : List Qinstance) : Except Stop (List Qinstance) :=
  request.addHosts.foldlM (fun added hostname =>
    if (qinstances ++ added).any fun q => q.qhostname = hostname then .ok added
    else do return added ++ [← qinstanceCreate master fuel request hostname]) []

/-- `cqueue_handle_qinstances`, and what `cqueue_commit` leaves of the queue instances. -/
def cqueueHandleQinstances (cqueue : Cqueue) : Except Stop Cqueue := do
  let qinstances ← cqueueModQinstances master fuel request cqueue.qinstances
  let added ← cqueueAddQinstances master fuel request qinstances
  return ⟨request.name, qinstances.filter (fun q => !request.deleted q.qhostname) ++ added⟩

/-- `cqueue_mod`, with the checks of the generic code before it and the replacement in the master
list after it. The values of all hosts have passed `cqueue_verify_attributes`. -/
def cqueueMod : Except Stop (List Cqueue) := do
  let old := cqueueListLocate master request.name
  if old.isSome = request.add || request.add && !verifyStrKey request.name then throw .refused
  else do
    let cqueue ← cqueueHandleQinstances master fuel request (old.getD ⟨request.name, []⟩)
    return master.eraseP (fun cq => cq.name = request.name) ++ [cqueue]

/-- A request that is accepted takes the master list from one state to the next. -/
def Accepted (master : List Cqueue) (request : Request) (master' : List Cqueue) : Prop :=
  (∀ hostname, cqueueVerifySubordinateList master request (request.newValue hostname) = true) ∧
    ∃ fuel, cqueueMod master fuel request = .ok master'

end Requests

end Slotwise

end GridEngine
