import RankingServer.Foundation.Accounting
import RankingServer.Network.Server

/-!
# Adding up over all places of a state

Something that belongs to the server, such as an object of the pool or the right
to post the next receive for a slot, is in the queue, in a posted operation, or
with one of the threads.  A `Weight` gives every place its contribution; the
lemmas say how the total changes with each of the places.
-/

namespace RankingServer.Network

open Accounting Utility
open scoped BigOperators

/-- A contribution from every place where something can be. -/
structure Weight where
  inQueue : Pointer → ℕ
  ofOperation : Operation → ℕ
  ofMain : Main → ℕ
  ofWorker : Worker → ℕ

namespace Weight

variable (μ : Weight) {n : ℕ}

def ofQueue (q : LockFreeCircleQueue (Option Pointer)) : ℕ :=
  (q.contents.map fun p => p.elim 0 μ.inQueue).sum

def ofPosted (posted : List Operation) : ℕ :=
  (posted.map μ.ofOperation).sum

def ofWorkers (workers : Fin n → Worker) : ℕ :=
  ∑ w, μ.ofWorker (workers w)

def total (s : State n) : ℕ :=
  μ.ofQueue s.mOverlappedQueue + μ.ofPosted s.posted + μ.ofMain s.main +
    μ.ofWorkers s.workers

theorem ofQueue_of_zero (h : ∀ p, μ.inQueue p = 0)
    (q : LockFreeCircleQueue (Option Pointer)) : μ.ofQueue q = 0 := by
  rw [ofQueue, List.sum_eq_zero_iff]
  intro x hx
  obtain ⟨p, -, rfl⟩ := List.mem_map.mp hx
  cases p with
  | none => rfl
  | some p => exact h p

theorem ofQueue_pop {q : LockFreeCircleQueue (Option Pointer)} {p : Pointer}
    (hpop : q.pop.2 = some p) :
    μ.ofQueue q = μ.inQueue p + μ.ofQueue q.pop.1 := by
  rw [ofQueue, contents_of_pop_eq_some hpop, List.map_cons, List.sum_cons]
  rfl

theorem ofQueue_push {q : LockFreeCircleQueue (Option Pointer)}
    (p : Pointer) (hroom : q.contents.length + 1 < q.mQueueMaxSize) :
    μ.ofQueue (q.push (some p)).1 = μ.ofQueue q + μ.inQueue p := by
  rw [ofQueue, (q.push_of_room (some p) hroom).2, List.map_append,
    List.sum_append]
  simp [ofQueue]

theorem ofPosted_cons (op : Operation) (posted : List Operation) :
    μ.ofPosted (op :: posted) = μ.ofOperation op + μ.ofPosted posted :=
  rfl

theorem ofPosted_eraseIdx {posted : List Operation} {k : ℕ} {op : Operation}
    (hget : posted[k]? = some op) :
    μ.ofOperation op + μ.ofPosted (posted.eraseIdx k) = μ.ofPosted posted :=
  sum_eraseIdx μ.ofOperation hget

theorem ofPosted_set {posted : List Operation} {k : ℕ} {op : Operation}
    (op' : Operation) (hget : posted[k]? = some op)
    (hsame : μ.ofOperation op' = μ.ofOperation op) :
    μ.ofPosted (posted.set k op') = μ.ofPosted posted := by
  have hsum := sum_set op' μ.ofOperation hget
  rw [hsame] at hsum
  exact Nat.add_left_cancel hsum

theorem ofWorkers_update (workers : Fin n → Worker) (w : Fin n)
    (next : Worker) :
    μ.ofWorkers (Function.update workers w next) + μ.ofWorker (workers w) =
      μ.ofWorkers workers + μ.ofWorker next :=
  sum_update_add workers w next μ.ofWorker

theorem total_setWorker (s : State n) (w : Fin n) (next : Worker) :
    μ.total (s.setWorker w next) + μ.ofWorker (s.workers w) =
      μ.total s + μ.ofWorker next := by
  have hworkers := μ.ofWorkers_update s.workers w next
  simp only [total, State.setWorker]
  omega

/-- A completion is recorded in the operation and moves nothing. -/
theorem total_of_completed {s s' : State n} {k : ℕ} {op op' : Operation}
    (hget : s.posted[k]? = some op)
    (hposted : s'.posted = s.posted.set k op')
    (hsame : μ.ofOperation op' = μ.ofOperation op)
    (hqueue : s'.mOverlappedQueue = s.mOverlappedQueue)
    (hmain : s'.main = s.main) (hworkers : s'.workers = s.workers) :
    μ.total s' = μ.total s := by
  rw [total, total, hqueue, hposted, hmain, hworkers,
    μ.ofPosted_set op' hget hsame]

/-- The contribution of an operation is part of the total. -/
theorem le_ofPosted {posted : List Operation} {op : Operation}
    (hop : op ∈ posted) : μ.ofOperation op ≤ μ.ofPosted posted :=
  List.single_le_sum (fun _ _ => Nat.zero_le _) _
    (List.mem_map_of_mem hop)

theorem le_ofWorkers (workers : Fin n → Worker) (w : Fin n) :
    μ.ofWorker (workers w) ≤ μ.ofWorkers workers :=
  le_sum (fun i => μ.ofWorker (workers i)) w

/-! ## What is in one place only -/

variable {μ} {s : State n}

/-- What a worker has is with no other thread and in no posted operation. -/
theorem worker_alone (htotal : μ.total s ≤ 1) {w : Fin n}
    (hw : 1 ≤ μ.ofWorker (s.workers w)) :
    (∀ op ∈ s.posted, μ.ofOperation op = 0) ∧ μ.ofMain s.main = 0 ∧
      ∀ v, v ≠ w → μ.ofWorker (s.workers v) = 0 := by
  have hworkers := μ.le_ofWorkers s.workers w
  rw [total] at htotal
  refine ⟨fun op hop => ?_, by omega, fun v hvw => ?_⟩
  · have hposted := μ.le_ofPosted hop
    omega
  · have hboth : μ.ofWorker (s.workers v) + μ.ofWorker (s.workers w) ≤
        μ.ofWorkers s.workers :=
      add_le_sum_of_ne (fun i => μ.ofWorker (s.workers i)) hvw
    omega

/-- What the main thread has is with no worker and in no posted operation. -/
theorem main_alone (htotal : μ.total s ≤ 1) (hmain : 1 ≤ μ.ofMain s.main) :
    (∀ op ∈ s.posted, μ.ofOperation op = 0) ∧
      ∀ v, μ.ofWorker (s.workers v) = 0 := by
  rw [total] at htotal
  refine ⟨fun op hop => ?_, fun v => ?_⟩
  · have hposted := μ.le_ofPosted hop
    omega
  · have hworkers := μ.le_ofWorkers s.workers v
    omega

/-- What is in a posted operation is in no other and with no thread. -/
theorem operation_alone (htotal : μ.total s ≤ 1) {k : ℕ} {op : Operation}
    (hget : s.posted[k]? = some op) (hop : 1 ≤ μ.ofOperation op) :
    (∀ op' ∈ s.posted.eraseIdx k, μ.ofOperation op' = 0) ∧
      μ.ofMain s.main = 0 ∧ ∀ v, μ.ofWorker (s.workers v) = 0 := by
  have herase := μ.ofPosted_eraseIdx hget
  rw [total] at htotal
  refine ⟨fun op' hop' => ?_, by omega, fun v => ?_⟩
  · have hrest := μ.le_ofPosted hop'
    omega
  · have hworkers := μ.le_ofWorkers s.workers v
    omega

/-- A total that is not zero comes from some place. -/
theorem exists_place (htotal : 0 < μ.total s) :
    0 < μ.ofQueue s.mOverlappedQueue ∨
      (∃ op ∈ s.posted, 0 < μ.ofOperation op) ∨ 0 < μ.ofMain s.main ∨
        ∃ w, 0 < μ.ofWorker (s.workers w) := by
  by_contra hnone
  push Not at hnone
  obtain ⟨hqueue, hposted, hmain, hworkers⟩ := hnone
  have hpostedZero : μ.ofPosted s.posted = 0 := by
    rw [ofPosted, List.sum_eq_zero_iff]
    intro x hx
    obtain ⟨op, hop, rfl⟩ := List.mem_map.mp hx
    exact Nat.eq_zero_of_le_zero (hposted op hop)
  have hworkersZero : μ.ofWorkers s.workers = 0 :=
    Finset.sum_eq_zero fun w _ => Nat.eq_zero_of_le_zero (hworkers w)
  rw [total] at htotal
  omega

end Weight

end RankingServer.Network
