import Mathlib.Data.Int.Notation
import Mathlib.Data.List.Basic

/-!
# Core binding of the execution daemon

The accounting of cores in `daemons/common/binding_support.c`. A topology string has an `S` for each
socket, behind it a `C` for each core and behind that a `T` for each thread, in lower case where
the resource is in use. The NUL at the end, which the lengths of the source count, is left out.
-/

namespace GridEngine

/-- `get_topology` for the numbers of threads of the cores of each socket. -/
def getTopology (sockets : List (List ℕ)) : List Char :=
  sockets.flatMap fun cores => 'S' :: cores.flatMap fun threads => 'C' :: List.replicate threads 'T'

/-- `topology[i]`, with the NUL behind the last character. -/
def charAt (topology : List Char) (i : ℕ) : Char := topology.getD i '\x00'

/-- The loop of `account_all_threads_after_core`. -/
def accountThreads : ℕ → List Char → ℕ → List Char
  | 0, topology, _ => topology
  | fuel + 1, topology, nextPos =>
      if charAt topology nextPos = 'T' ∨ charAt topology nextPos = 't' then
        accountThreads fuel (topology.set nextPos 't') (nextPos + 1)
      else topology

def accountAllThreadsAfterCore (topology : List Char) (corePos : ℕ) : List Char :=
  if topology.length ≤ corePos then topology
  else if topology.length ≤ corePos + 1 then topology
  else accountThreads topology.length topology (corePos + 1)

/-- A core and its threads are taken. -/
def accountCore (topology : List Char) (pos : ℕ) : List Char :=
  accountAllThreadsAfterCore (topology.set pos 'c') pos

/-- The loop of `get_position_in_topology`, with `s` sockets and `c` cores behind it. -/
def positionFrom (socket core : ℤ) : ℤ → ℤ → ℕ → List Char → ℤ
  | _, _, _, [] => -1
  | s, c, i, x :: rest =>
      let s' := if x = 'S' then s + 1 else s
      let c' := if x = 'S' then -1 else if x = 'C' then c + 1 else c
      if socket = s' ∧ core = c' then i else positionFrom socket core s' c' (i + 1) rest

/-- The result for a negative number is `false`, which is position 0. -/
def getPositionInTopology (socket core : ℤ) (topology : List Char) : ℤ :=
  if socket < 0 ∨ core < 0 then 0 else positionFrom socket core (-1) (-1) 0 topology

/-- `account_job_on_topology`, `none` for `false` -/
def accountJobOnTopology (topology job : List Char) : Option (List Char) :=
  if topology.length ≠ job.length then none
  else some (List.zipWith (fun c j => if j = 'c' ∨ j = 's' ∨ j = 't' then j else c) topology job)

/-- The loop over the pairs of a socket and a core. -/
def accountPairs (logicalUsedTopology : List Char) : List (ℤ × ℤ) → List Char → Option (List Char)
  | [], topoUsedByJob => some topoUsedByJob
  | (socket, core) :: rest, topoUsedByJob =>
      let pos := getPositionInTopology socket core logicalUsedTopology
      if pos < 0 then none
      else if charAt logicalUsedTopology pos.toNat = 'C' then
        accountPairs logicalUsedTopology rest (accountCore topoUsedByJob pos.toNat)
      else none

/-- What an allocation returns, and the topology in use behind it. `job` is the topology of the job
when the allocation is possible. -/
structure Binding where
  job : Option (List Char)
  logicalUsedTopology : List Char
deriving DecidableEq, Repr

def bindingExplicitCheckAndAccount (host logicalUsedTopology : List Char)
    (listOfSockets listOfCores : List ℤ) : Binding :=
  if listOfSockets.length ≠ listOfCores.length ∨ listOfSockets.length = 0 then
    ⟨none, logicalUsedTopology⟩
  else
    match accountPairs logicalUsedTopology (listOfSockets.zip listOfCores) host with
    | none => ⟨none, logicalUsedTopology⟩
    | some topoUsedByJob =>
        match accountJobOnTopology logicalUsedTopology topoUsedByJob with
        | none => ⟨none, logicalUsedTopology⟩
        | some topology => ⟨some topoUsedByJob, topology⟩

/-- The loop of `free_topology`, which handles at most `size` characters. -/
def freeFrom : ℕ → List Char → List Char → Bool × List Char
  | 0, _, logical => (true, logical)
  | _ + 1, [], logical => (true, logical)
  | _ + 1, _ :: _, [] => (true, [])
  | size + 1, t :: topology, l :: logical =>
      if t = 'c' then
        if l ≠ 'c' ∧ l ≠ 'C' then (false, l :: logical)
        else (freeFrom size topology logical).map id ('C' :: ·)
      else if t = 't' then
        if l ≠ 't' ∧ l ≠ 'T' then (false, l :: logical)
        else (freeFrom size topology logical).map id ('T' :: ·)
      else if t = 's' then
        if l ≠ 's' ∧ l ≠ 'S' then (false, l :: logical)
        else (freeFrom size topology logical).map id ('S' :: ·)
      else (freeFrom size topology logical).map id (l :: ·)

/-- A negative length stands for an unknown one. -/
def freeTopology (topology : List Char) (topologyLength : ℤ) (logicalUsedTopology : List Char) :
    Bool × List Char :=
  freeFrom (if topologyLength < 0 then 1000000 else topologyLength.toNat) topology
    logicalUsedTopology

def isSocket (x : Char) : Bool := x = 'S' || x = 's'

/-- `get_free_sockets`. The inner loop stops at the next socket, and the outer one goes on behind
it. -/
def freeSocketsFrom : ℕ → List Char → ℕ → List ℕ
  | 0, _, _ => []
  | _ + 1, [], _ => []
  | fuel + 1, x :: rest, socketNumber =>
      if isSocket x then
        let behind := freeSocketsFrom fuel ((rest.dropWhile fun y => !isSocket y).drop 1)
          (socketNumber + 1)
        if (rest.takeWhile fun y => !isSocket y).all (· ≠ 'c') then socketNumber :: behind
        else behind
      else freeSocketsFrom fuel rest socketNumber

def getFreeSockets (topology : List Char) : List ℕ := freeSocketsFrom topology.length topology 0

/-- The loop of `get_socket_with_most_free_cores`. -/
def mostFreeFrom : List Char → ℤ → ℕ → ℕ → ℤ → ℕ × ℤ
  | [], _, _, highest, socketNumber => (highest, socketNumber)
  | x :: rest, currentSocket, currentFreeCores, highest, socketNumber =>
      if isSocket x then mostFreeFrom rest (currentSocket + 1) 0 highest socketNumber
      else if x = 'C' then
        if highest < currentFreeCores + 1 then
          mostFreeFrom rest currentSocket (currentFreeCores + 1) (currentFreeCores + 1)
            currentSocket
        else mostFreeFrom rest currentSocket (currentFreeCores + 1) highest socketNumber
      else mostFreeFrom rest currentSocket currentFreeCores highest socketNumber

def getSocketWithMostFreeCores (topology : List Char) : Option ℤ :=
  let found := mostFreeFrom topology (-1) 0 0 0
  if found.1 ≤ 0 then none else some found.2

/-- The first loop of `account_cores_on_socket`: the number of the last socket seen and where the
loop stops. -/
def socketFrom (socketNumber : ℤ) : List Char → ℤ → ℕ → ℤ × ℕ
  | [], current, i => (current, i)
  | x :: rest, current, i =>
      if isSocket x then
        if socketNumber ≤ current + 1 then (current + 1, i)
        else socketFrom socketNumber rest (current + 1) (i + 1)
      else socketFrom socketNumber rest current (i + 1)

/-- What `account_cores_on_socket` changes: the topology, the number of cores taken, and the pairs
of a socket and a core appended to the lists. -/
structure SocketCores where
  topology : List Char
  retval : ℤ
  pairs : List (ℤ × ℤ)
deriving DecidableEq, Repr

/-- The second loop of `account_cores_on_socket`. -/
def coresFrom (socketNumber coresNeeded : ℤ) : ℕ → ℕ → ℤ → SocketCores → SocketCores
  | 0, _, _, acc => acc
  | fuel + 1, i, coreCounter, acc =>
      let x := charAt acc.topology i
      if x = '\x00' then acc
      else if x = 'C' then
        let acc := ⟨accountCore acc.topology i, acc.retval + 1,
          acc.pairs ++ [(socketNumber, coreCounter)]⟩
        if coresNeeded ≤ acc.retval then acc
        else coresFrom socketNumber coresNeeded fuel (i + 1) (coreCounter + 1) acc
      else if isSocket x then acc
      else if coresNeeded ≤ acc.retval then acc
      else coresFrom socketNumber coresNeeded fuel (i + 1)
        (if x = 'c' then coreCounter + 1 else coreCounter) acc

def accountCoresOnSocket (topology : List Char) (socketNumber coresNeeded : ℤ)
    (pairs : List (ℤ × ℤ)) : SocketCores :=
  let place := socketFrom socketNumber topology (-1) 0
  if socketNumber ≠ place.1 then ⟨topology, 0, pairs⟩
  else coresFrom socketNumber coresNeeded topology.length (place.2 + 1) 0 ⟨topology, 0, pairs⟩

/-- The sockets that are free, as far as cores are needed. `retval` counts all cores taken. -/
def fillFreeSockets (amount : ℤ) : List ℕ → SocketCores → SocketCores
  | [], acc => acc
  | socket :: rest, acc =>
      if acc.retval < amount then
        let found := accountCoresOnSocket acc.topology socket (amount - acc.retval) acc.pairs
        fillFreeSockets amount rest ⟨found.topology, acc.retval + found.retval, found.pairs⟩
      else acc

/-- Fills up the sockets with the most free cores. Every round takes a core, so that `fuel` is the
number of cores needed. -/
def fillSockets : ℕ → ℤ → List Char → List (ℤ × ℤ) → Bool × List Char × List (ℤ × ℤ)
  | 0, neededCores, topology, pairs => (decide (neededCores ≤ 0), topology, pairs)
  | fuel + 1, neededCores, topology, pairs =>
      if 0 < neededCores then
        match getSocketWithMostFreeCores topology with
        | none => (false, topology, pairs)
        | some socketFree =>
            let found := accountCoresOnSocket topology socketFree neededCores pairs
            if found.retval < 1 then (false, found.topology, found.pairs)
            else fillSockets fuel (neededCores - found.retval) found.topology found.pairs
      else (true, topology, pairs)

def lowerToUpper (x : Char) : Char :=
  if x = 'c' then 'C' else if x = 's' then 'S' else if x = 't' then 'T' else x

/-- `create_topology_used_per_job` -/
def createTopologyUsedPerJob (logicalUsedTopology usedTopoWithJob : List Char) : List Char :=
  List.zipWith (fun l u =>
    if u = 'c' ∧ l = 'C' then 'c'
    else if u = 't' ∧ l = 'T' then 't'
    else if u = 's' ∧ l = 'S' then 's'
    else lowerToUpper l) logicalUsedTopology usedTopoWithJob

/-- The allocation, and the pairs of a socket and a core. -/
def getLinearAutomaticSocketCoreListAndAccount (logicalUsedTopology : List Char) (amount : ℤ) :
    Binding × List (ℤ × ℤ) :=
  let free := fillFreeSockets amount (getFreeSockets logicalUsedTopology)
    ⟨logicalUsedTopology, 0, []⟩
  let filled := fillSockets (amount - free.retval).toNat (amount - free.retval) free.topology
    free.pairs
  if filled.1 then
    (⟨some (createTopologyUsedPerJob logicalUsedTopology filled.2.1), filled.2.1⟩, filled.2.2)
  else (⟨none, logicalUsedTopology⟩, filled.2.2)

/-- The loop of `is_starting_point`, which reads the topology and marks a copy. -/
def strideFrom (amount stepsize : ℤ) : List Char → ℕ → ℤ → ℤ → List Char → Bool × List Char
  | [], _, _, _, topoAccount => (false, topoAccount)
  | x :: rest, i, foundCores, accountedCores, topoAccount =>
      if x = 'C' then
        if stepsize ≤ foundCores then
          if accountedCores + 1 = amount then (true, accountCore topoAccount i)
          else strideFrom amount stepsize rest (i + 1) 1 (accountedCores + 1)
            (accountCore topoAccount i)
        else if accountedCores = amount then (true, topoAccount)
        else strideFrom amount stepsize rest (i + 1) (foundCores + 1) accountedCores topoAccount
      else if x = 'c' then
        if stepsize ≤ foundCores then (false, topoAccount)
        else if accountedCores = amount then (true, topoAccount)
        else strideFrom amount stepsize rest (i + 1) (foundCores + 1) accountedCores topoAccount
      else if accountedCores = amount then (true, topoAccount)
      else strideFrom amount stepsize rest (i + 1) foundCores accountedCores topoAccount

def isStartingPoint (topo : List Char) (pos : ℕ) (amount stepsize : ℤ) (topoAccount : List Char) :
    Bool × List Char :=
  if stepsize < 1 ∨ topo.length < pos ∨ amount < 1 ∨ charAt topo pos ≠ 'C' then (false, topoAccount)
  else if amount = 1 then (true, accountCore topoAccount pos)
  else strideFrom amount stepsize (topo.drop (pos + 1)) (pos + 1) 1 1 (accountCore topoAccount pos)

/-- The first loop of the striding allocation: where the first socket and core are. -/
def startFrom (startAtSocket startAtCore : ℤ) : List Char → ℤ → ℤ → ℕ → Option ℕ
  | [], _, _, _ => none
  | x :: rest, sc, cc, i =>
      let sc' := if isSocket x then sc + 1 else sc
      let cc' := if x = 'C' ∨ x = 'c' then cc + 1 else if isSocket x then -1 else cc
      if sc' = startAtSocket ∧ cc' = startAtCore then some i
      else startFrom startAtSocket startAtCore rest sc' cc' (i + 1)

/-- The second loop. What a failed starting point has marked on the copy stays there. -/
def tryStarts (logicalUsedTopology : List Char) (amount stepsize : ℤ) (automatic : Bool) :
    List Char → ℕ → ℕ → ℕ → List Char → Option (List Char × ℕ × ℕ)
  | [], _, _, _, _ => none
  | x :: rest, i, foundSockets, foundCores, tmpTopoBusy =>
      let start := isStartingPoint logicalUsedTopology i amount stepsize tmpTopoBusy
      if start.1 then some (start.2, foundSockets, foundCores)
      else if x = 'C' ∨ x = 'c' then
        if automatic = false then none
        else tryStarts logicalUsedTopology amount stepsize automatic rest (i + 1) foundSockets
          (foundCores + 1) start.2
      else if isSocket x then
        tryStarts logicalUsedTopology amount stepsize automatic rest (i + 1) (foundSockets + 1) 0
          start.2
      else tryStarts logicalUsedTopology amount stepsize automatic rest (i + 1) foundSockets
        foundCores start.2

/-- The allocation, and the first socket and the first core. -/
def getStridingFirstSocketFirstCoreAndAccount (logicalUsedTopology : List Char)
    (amount stepsize startAtSocket startAtCore : ℤ) (automatic : Bool) : Binding × ℤ × ℤ :=
  if startAtSocket < 0 ∨ startAtCore < 0 then (⟨none, logicalUsedTopology⟩, 0, 0)
  else
    match startFrom startAtSocket startAtCore logicalUsedTopology (-1) (-1) 0 with
    | none => (⟨none, logicalUsedTopology⟩, 0, 0)
    | some i =>
        match tryStarts logicalUsedTopology amount stepsize automatic (logicalUsedTopology.drop i)
          i 0 0 logicalUsedTopology with
        | none => (⟨none, logicalUsedTopology⟩, 0, 0)
        | some (tmpTopoBusy, foundSockets, foundCores) =>
            (⟨some (createTopologyUsedPerJob logicalUsedTopology tmpTopoBusy), tmpTopoBusy⟩,
              startAtSocket + foundSockets, startAtCore + foundCores)

end GridEngine
