import Ferrosa.Accord.Types
import Ferrosa.Lib.FiniteMap

/-!
# The dependency-wait graph

Which transactions wait for which others on one replica, and which of them count
as applied.  The edges are kept in both directions.
-/

namespace Ferrosa.Accord

structure DepWaitGraph where
  waitingOn : FiniteMap TxnId (List TxnId)
  waitedBy : FiniteMap TxnId (List TxnId)
  applied : List TxnId

namespace DepWaitGraph

def new : DepWaitGraph := ⟨∅, ∅, []⟩

def without (txnId : TxnId) (ids : List TxnId) : List TxnId := ids.filter fun id => id ≠ txnId

def dropEdge (edges : FiniteMap TxnId (List TxnId)) (source target : TxnId) :
    FiniteMap TxnId (List TxnId) :=
  match edges.lookup source with
  | some targets =>
    if without target targets = [] then edges.erase source
    else edges.insert source (without target targets)
  | none => edges

def addEdge (edges : FiniteMap TxnId (List TxnId)) (source target : TxnId) :
    FiniteMap TxnId (List TxnId) :=
  edges.insert source (((edges.lookup source).getD []).insert target)

variable (graph : DepWaitGraph)

def dfsCycle : Nat → TxnId → List TxnId → List TxnId → Bool × List TxnId
  | 0, _, visited, _ => (false, visited)
  | fuel + 1, node, visited, path =>
    if node ∈ path then (true, visited)
    else if node ∈ visited then (false, visited)
    else
      (((graph.waitingOn.lookup node).getD []).insertionSort (· ≤ ·)).foldl
        (fun (found, visited) dep =>
          if found then (found, visited) else dfsCycle fuel dep visited (node :: path))
        (false, node :: visited)

/-- A path visits every waiting transaction at most once, which bounds the search. -/
def detectCycle (start : TxnId) : Bool :=
  (graph.dfsCycle (graph.waitingOn.keys.length + 2) start [] []).1

def isApplied (txnId : TxnId) : Bool := txnId ∈ graph.applied

/-- Add a wait; an error carries the graph without the edge that would close a cycle. -/
def registerWait (waiter dep : TxnId) : Except DepWaitGraph DepWaitGraph :=
  if graph.isApplied dep then .ok graph
  else
    let extended : DepWaitGraph :=
      { graph with
        waitingOn := addEdge graph.waitingOn waiter dep
        waitedBy := addEdge graph.waitedBy dep waiter }
    if extended.detectCycle waiter then
      .error { extended with
          waitingOn := dropEdge extended.waitingOn waiter dep
          waitedBy := dropEdge extended.waitedBy dep waiter }
    else .ok extended

/-- Mark a transaction applied; the waiters it was the last dependency of are woken. -/
def markApplied (order : IterationOrder) (txnId : TxnId) : List TxnId × DepWaitGraph :=
  let waiters := order.visit ((graph.waitedBy.lookup txnId).getD [])
  let released := FiniteMap.modifyAll graph.waitingOn waiters (without txnId)
  let woken := waiters.filter fun waiter => released.lookup waiter = some []
  (woken,
    { waitingOn := (FiniteMap.eraseAll released woken).erase txnId
      waitedBy := graph.waitedBy.erase txnId
      applied := graph.applied.insert txnId })

def clearWaits (waiter : TxnId) : DepWaitGraph :=
  match graph.waitingOn.lookup waiter with
  | some deps =>
    { graph with
      waitingOn := graph.waitingOn.erase waiter
      waitedBy := deps.foldl (fun edges dep => dropEdge edges dep waiter) graph.waitedBy }
  | none => graph

def waitersOf (order : IterationOrder) (dep : TxnId) : List TxnId :=
  order.visit ((graph.waitedBy.lookup dep).getD [])

def depsOf (order : IterationOrder) (waiter : TxnId) : List TxnId :=
  order.visit ((graph.waitingOn.lookup waiter).getD [])

/-- Drop one wait; the result says whether it was the waiter's last. -/
def waive (waiter dep : TxnId) : Bool × DepWaitGraph :=
  match graph.waitingOn.lookup waiter with
  | some deps =>
    if dep ∈ deps then
      (without dep deps = [], { graph with
          waitingOn := dropEdge graph.waitingOn waiter dep
          waitedBy := dropEdge graph.waitedBy dep waiter })
    else (false, graph)
  | none => (false, graph)

def forget (txns : List TxnId) : DepWaitGraph :=
  { graph with applied := graph.applied.filter fun txnId => txnId ∉ txns }

end DepWaitGraph

end Ferrosa.Accord
