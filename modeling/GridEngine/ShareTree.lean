import Mathlib.Algebra.Order.Field.Basic
import Mathlib.Algebra.Order.Floor.Semiring
import Mathlib.Algebra.BigOperators.Group.List.Basic

/-!
# The share tree

The tasks refer to nodes of the share tree. `update_job_ref_count` counts for every node the
references below it, `sge_calc_node_targets` divides the entitlement of a node among its active
children, level by level, and the two passes over the running tasks divide the tickets of a node
among its tasks. The numbers are those of an ordered field, and a division by zero has no result.
A node without children has no list of children.
-/

namespace GridEngine.ShareTree

variable {K : Type} [Field K] [LinearOrder K]

/-- The fields of a `STN_Type` element that are there before the targets are calculated. -/
structure StnNode (K : Type) where
  id : ℕ
  shares : ℕ
  combinedUsage : K
  jobRefCount : ℕ

/-- The fields that the calculation sets. -/
structure Targets (K : Type) where
  ltt : K
  oltt : K
  stt : K
  ostt : K
  shr : K
  adjustedCurrentProportion : K

/-- A share tree. -/
inductive Stn (K : Type)
  | mk (node : StnNode K) (targets : Targets K) (children : List (Stn K))

namespace Stn

def node : Stn K → StnNode K
  | mk node _ _ => node

def targets : Stn K → Targets K
  | mk _ targets _ => targets

def children : Stn K → List (Stn K)
  | mk _ _ children => children

/-- The fields of the element itself. -/
def element (tree : Stn K) : StnNode K × Targets K := (tree.node, tree.targets)

end Stn

section Traversal

mutual

/-- The node and everything below it. -/
def Stn.nodes : Stn K → List (Stn K)
  | .mk node targets children => .mk node targets children :: nodesBelow children

def nodesBelow : List (Stn K) → List (Stn K)
  | [] => []
  | child :: children => child.nodes ++ nodesBelow children

end

/-- The nodes without children. -/
def Stn.leaves (tree : Stn K) : List (Stn K) := tree.nodes.filter fun node => node.children.isEmpty

mutual

/-- `sge_for_each_share_tree_node`. -/
def forEachShareTreeNode (f : StnNode K × Targets K → StnNode K × Targets K) : Stn K → Stn K
  | .mk node targets children =>
      .mk (f (node, targets)).1 (f (node, targets)).2 (forEachBelow f children)

def forEachBelow (f : StnNode K × Targets K → StnNode K × Targets K) : List (Stn K) →
    List (Stn K)
  | [] => []
  | child :: children => forEachShareTreeNode f child :: forEachBelow f children

end

end Traversal

/-- `STN_job_ref_count > 0`. -/
def StnNode.active (node : StnNode K) : Bool := 0 < node.jobRefCount

section Counts

/-- What a `sge_ref_t` has to do with the share tree: the `JB_jobshare` of the job, and the node it
refers to. -/
structure Ref where
  jobshare : ℕ
  node : Option ℕ

/-- `sge_init_share_tree_node_fields`. -/
def sgeInitShareTreeNodeFields (element : StnNode K × Targets K) : StnNode K × Targets K :=
  ({ element.1 with jobRefCount := 0 },
    { element.2 with stt := 0, ostt := 0, ltt := 0, oltt := 0, shr := 0,
                     adjustedCurrentProportion := 0 })

/-- Counts a reference to the node. -/
def addJobRef (id : ℕ) (element : StnNode K × Targets K) : StnNode K × Targets K :=
  if element.1.id = id then
    ({ element.1 with jobRefCount := element.1.jobRefCount + 1 }, element.2)
  else element

/-- The loops over the running and the queued tasks that set the references. -/
def countJobRefs (refs : List Ref) (root : Stn K) : Stn K :=
  refs.foldl (fun root ref =>
    match ref.node with
    | none => root
    | some id => forEachShareTreeNode (addJobRef id) root)
    (forEachShareTreeNode sgeInitShareTreeNodeFields root)

mutual

/-- `update_job_ref_count`. -/
def updateJobRefCount : Stn K → Stn K
  | .mk node targets [] => .mk node targets []
  | .mk node targets (child :: children) =>
      let children := updateChildren (child :: children)
      let jobCount := (children.map fun child => child.node.jobRefCount).sum
      .mk { node with jobRefCount := jobCount } targets children

/-- The loop over the children. -/
def updateChildren : List (Stn K) → List (Stn K)
  | [] => []
  | child :: children => updateJobRefCount child :: updateChildren children

end

end Counts

section NodeTargets

def SGE_MIN_USAGE : K := 1

/-- A division that the source does not guard. -/
def divide (a b : K) : Option K := if b = 0 then none else some (a / b)

/-- The body of a loop over the children that skips those without jobs. -/
def onActive (f : StnNode K → Targets K → Option (Targets K)) (child : StnNode K × Targets K) :
    Option (StnNode K × Targets K) :=
  if child.1.active then (f child.1 child.2).map (child.1, ·) else some child

/-- What a loop sums up over the active children. -/
def activeSum (f : StnNode K × Targets K → K) (children : List (StnNode K × Targets K)) : K :=
  ((children.filter fun child => child.1.active).map f).sum

/-- The long term targets and the `shr` value of a child. -/
def longTerm (parent : Targets K) (sumShares : K) (node : StnNode K) (t : Targets K) :
    Option (Targets K) := do
  let shares : K := node.shares
  let ltt ← if 0 < sumShares then divide shares sumShares else some 0
  let oltt := parent.oltt * ltt
  let shr ← if 0 < oltt then
      divide (shares * shares) (max node.combinedUsage (SGE_MIN_USAGE * oltt))
    else some 0
  some { t with ltt := ltt, oltt := oltt, shr := shr }

/-- Sets the short term target of a child. -/
def setStt (parent : Targets K) (t : Targets K) (stt : K) : Targets K :=
  { t with stt := stt, ostt := parent.ostt * stt, adjustedCurrentProportion := parent.ostt * stt }

/-- The short term targets of a child. -/
def shortTerm (parent : Targets K) (sum : K) (_ : StnNode K) (t : Targets K) :
    Option (Targets K) := do
  let stt ← if 0 < sum then divide t.shr sum else some 0
  some (setStt parent t stt)

/-- The child has more than the compensation factor allows. -/
def exceeds (compensationFactor : K) (t : Targets K) : Bool :=
  compensationFactor * t.oltt < t.ostt

/-- The `shr` value of a child that exceeds its long term target. -/
def compensate (compensationFactor : K) (node : StnNode K) (t : Targets K) :
    Option (Targets K) :=
  if exceeds compensationFactor t then do
    let shares : K := node.shares
    let ratio ← divide t.ostt (compensationFactor * t.oltt)
    let shr ← divide (shares * shares)
      (max node.combinedUsage (SGE_MIN_USAGE * t.oltt) * ratio)
    some { t with shr := shr }
  else some t

/-- The short term targets again, after some `shr` value was changed. -/
def shortTermAgain (parent : Targets K) (sum : K) (_ : StnNode K) (t : Targets K) :
    Option (Targets K) := do
  let stt ← divide t.shr sum
  some (setStt parent t stt)

/-- The loops of `sge_calc_node_targets` over the children of one node. -/
def childTargets (compensationFactor : K) (parent : Targets K)
    (children : List (StnNode K × Targets K)) : Option (List (StnNode K × Targets K)) := do
  let sumShares := activeSum (fun child => (child.1.shares : K)) children
  let children ← children.mapM (onActive (longTerm parent sumShares))
  let sum := activeSum (fun child => child.2.shr) children
  let children ← children.mapM (onActive (shortTerm parent sum))
  if compensationFactor = 0 then some children
  else
    let compensation :=
      children.any fun child => child.1.active && exceeds compensationFactor child.2
    let children ← children.mapM (onActive (compensate compensationFactor))
    let sum := activeSum (fun child => child.2.shr) children
    if compensation then children.mapM (onActive (shortTermAgain parent sum)) else some children

mutual

/-- `sge_calc_node_targets` for a node whose own targets are `t`. -/
def calcNodeTargets (compensationFactor : K) (t : Targets K) : Stn K → Option (Stn K)
  | .mk node _ children => do
      let targets ← childTargets compensationFactor t
        (children.map Stn.element)
      let children ← calcChildren compensationFactor (targets.map Prod.snd) children
      some (.mk node t children)

/-- The recursive calls, for the active children. -/
def calcChildren (compensationFactor : K) : List (Targets K) → List (Stn K) →
    Option (List (Stn K))
  | t :: targets, child :: children => do
      let child ← if child.node.active then calcNodeTargets compensationFactor t child
        else some (.mk child.node t child.children)
      let children ← calcChildren compensationFactor targets children
      some (child :: children)
  | _, _ => some []

end

/-- `sge_calc_node_targets` for the root. -/
def sgeCalcNodeTargets (compensationFactor : K) (root : Stn K) : Option (Stn K) :=
  calcNodeTargets compensationFactor
    { root.targets with stt := 1, ltt := 1, ostt := 1, oltt := 1 } root

end NodeTargets

section Tickets
variable [FloorSemiring K]

/-- `calc_job_share_tree_tickets_pass1`, on the `STN_sum_priority` of the nodes. -/
def calcJobShareTreeTicketsPass1 (sumPriority : ℕ → ℕ) (ref : Ref) : ℕ → ℕ :=
  match ref.node with
  | none => sumPriority
  | some node => Function.update sumPriority node (sumPriority node + ref.jobshare)

/-- `calc_job_share_tree_tickets_pass2`. A reference without a node gets no tickets assigned. -/
def calcJobShareTreeTicketsPass2 (totalShareTreeTickets : K) (root : Stn K)
    (sumPriority : ℕ → ℕ) (ref : Ref) : Option (Option K) :=
  match ref.node with
  | none => some none
  | some id => do
      let node ← root.nodes.find? fun node => node.node.id = id
      let shareTreeTickets := node.targets.adjustedCurrentProportion * totalShareTreeTickets
      if sumPriority id ≠ 0 then do
        let tickets ← divide ((ref.jobshare : K) * shareTreeTickets) (sumPriority id)
        some (some (⌊tickets⌋₊ : K))
      else do
        let tickets ← divide shareTreeTickets node.node.jobRefCount
        some (some tickets)

/-- The two passes over the running tasks. -/
def shareTreeTickets (totalShareTreeTickets : ℕ) (root : Stn K) (running : List Ref) :
    Option (List (Option K)) :=
  if 0 < totalShareTreeTickets then
    let sumPriority := running.foldl calcJobShareTreeTicketsPass1 fun _ => 0
    running.mapM (calcJobShareTreeTicketsPass2 (totalShareTreeTickets : K) root sumPriority)
  else some (running.map fun _ => none)

end Tickets

end GridEngine.ShareTree
