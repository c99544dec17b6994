import Vllm.Lib.Heapq
import Vllm.Request

/-! `request_queue.py`: the waiting queues under the two policies. A queue lists the ids of the
requests; under the priority policy the list is a heap, ordered by `lt`. -/
namespace Vllm

inductive SchedulingPolicy where
  | fcfs | priority
  deriving DecidableEq, Repr

/-- The comparison of `Request.__lt__`. Two requests never have the same id. -/
def Request.lt (r other : Request) : Bool :=
  if r.priority ≠ other.priority then r.priority < other.priority
  else if r.arrivalTime ≠ other.arrivalTime then r.arrivalTime < other.arrivalTime
  else r.requestId < other.requestId

/-- What `Request.__lt__` compares. -/
def Request.sortKey (r : Request) : ℤ × ℚ × RequestId := (r.priority, r.arrivalTime, r.requestId)

namespace RequestQueue
variable (policy : SchedulingPolicy) (lt : RequestId → RequestId → Bool)

def addRequest (q : List RequestId) (requestId : RequestId) : List RequestId :=
  match policy with
  | .fcfs => q ++ [requestId]
  | .priority => Heapq.heappush lt q requestId

def peekRequest (q : List RequestId) : Option RequestId := q.head?

def popRequest (q : List RequestId) : Option (RequestId × List RequestId) :=
  match policy with
  | .fcfs => q.head?.map fun requestId => (requestId, q.tail)
  | .priority => Heapq.heappop lt q

def prependRequest (q : List RequestId) (requestId : RequestId) : List RequestId :=
  match policy with
  | .fcfs => requestId :: q
  | .priority => addRequest policy lt q requestId

def prependRequests (q requests : List RequestId) : List RequestId :=
  match policy with
  | .fcfs => requests.reverse ++ q
  | .priority => (Heapq.popAll lt requests.length requests).foldl (addRequest policy lt) q

def removeRequests (q requests : List RequestId) : List RequestId :=
  match policy with
  | .fcfs => q.filter (· ∉ requests)
  | .priority => Heapq.heapify lt (q.filter (· ∉ requests))

theorem addRequest_perm (q : List RequestId) (requestId : RequestId) :
    (addRequest policy lt q requestId).Perm (requestId :: q) := by
  unfold addRequest
  split
  · exact List.perm_append_singleton requestId q
  · exact Heapq.heappush_perm lt q requestId

theorem prependRequest_perm (q : List RequestId) (requestId : RequestId) :
    (prependRequest policy lt q requestId).Perm (requestId :: q) := by
  unfold prependRequest
  split
  · exact .refl _
  · exact addRequest_perm _ lt q requestId

variable {policy lt}

theorem popRequest_perm {q rest : List RequestId} {requestId : RequestId}
    (h : popRequest policy lt q = some (requestId, rest)) :
    peekRequest q = some requestId ∧ q.Perm (requestId :: rest) := by
  unfold popRequest at h
  split at h
  · cases q with
    | nil => simp at h
    | cons x q =>
      obtain ⟨rfl, rfl⟩ := Prod.mk.inj (Option.some.inj h)
      exact ⟨rfl, .refl _⟩
  · exact Heapq.heappop_perm lt h

variable (policy lt)

theorem prependRequests_perm (q requests : List RequestId) :
    (prependRequests policy lt q requests).Perm (requests ++ q) := by
  unfold prependRequests
  split
  · exact (List.reverse_perm requests).append_right q
  · have hfold : ∀ l q : List RequestId,
        (l.foldl (addRequest .priority lt) q).Perm (l ++ q) := by
      intro l
      induction l with
      | nil => exact fun q => .refl q
      | cons x l ih =>
        intro q
        rw [List.foldl_cons, List.cons_append]
        have hadd := (addRequest_perm .priority lt q x).append_left l
        exact (ih _).trans (hadd.trans List.perm_middle)
    exact (hfold _ q).trans ((Heapq.popAll_perm lt le_rfl).append_right q)

theorem removeRequests_perm (q requests : List RequestId) :
    (removeRequests policy lt q requests).Perm (q.filter (· ∉ requests)) := by
  unfold removeRequests
  split
  · exact .refl _
  · exact Heapq.heapify_perm lt _

end RequestQueue

end Vllm
