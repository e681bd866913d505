import RankingServer.Foundation.Potential
import RankingServer.Network.Conversation

/-!
# How the server comes to rest

The threads run in loops without end, but between two completions they have only
so much to do: a completion keeps a worker busy for eight steps at most, and the
start-up is a bounded piece of work.  When nothing completes any more, the
server comes to rest: all workers are at the port, and no completion waits for
them.  What it owes then is nothing: on every slot it waits for a connection or
for a request.
-/

namespace RankingServer.Network

open Accounting Transition Utility

variable {α : Type*} {n : ℕ} {c : Config} {handler : Handler α}
  {s s' : State n} {e : Event α n} {slot : ℕ}

/-! ## The steps that are left -/

/-- The steps that the completions and threads at hand still lead to. -/
def backlog (n : ℕ) : Weight where
  inQueue _ := 0
  ofOperation op :=
    match op.completion with
    | none => 0
    | some .failed => 1
    | some (.done _) => 8
  ofMain
    | .accepting clients => 2 * clients.length + n + 2
    | .popped _ clients _ => 2 * clients.length + n + 3
    | .spawning k => n - k + 1
    | .working => 0
  ofWorker
    | .unstarted | .waiting => 0
    | .dispatching _ _ => 7
    | .handling _ _ _ => 6
    | .calling _ _ (.send _ _ _) => 5
    | .popped _ _ (.send _ _ _) _ => 4
    | .calling _ _ .receiveReady => 3
    | .popped _ _ .receiveReady _ => 2
    | .recycling _ => 1

/-- A crash is a step, too. -/
def State.left (s : State n) : ℕ :=
  (backlog n).total s + if s.crash = none then 1 else 0

/-- The event is a step of a thread, not a completion. -/
def Event.own : Event α n → Bool
  | .main _ | .dequeue _ _ | .work _ _ _ => true
  | .complete _ _ | .fail _ => false

@[simp] theorem backlog_ofQueue (q : LockFreeCircleQueue (Option Pointer)) :
    (backlog n).ofQueue q = 0 :=
  Weight.ofQueue_of_zero _ (fun _ => rfl) q

theorem backlog_dispatch_lt (o : CustomOverlapped) (overlapped : Pointer)
    (completionKey bytesTransferred : ℕ) :
    (backlog n).ofWorker (Session.dispatch c o overlapped completionKey
      bytesTransferred) < 7 := by
  rw [Session.dispatch]
  split
  · split
    · change 3 < 7
      decide
    · change 0 < 7
      decide
  · split
    · split
      · change 3 < 7
        decide
      · change 6 < 7
        decide
    · change 0 < 7
      decide
  · change 1 < 7
    decide
  · change 1 < 7
    decide

theorem backlog_calling_lt (overlapped : Pointer) (client : ℕ) (call : Call) :
    (backlog n).ofWorker (.calling overlapped client call) < 6 := by
  cases call with
  | receiveReady => exact (by decide : 3 < 6)
  | send => exact (by decide : 5 < 6)

theorem backlog_popped_lt (overlapped p : Pointer) (client : ℕ)
    (call : Call) :
    (backlog n).ofWorker (.popped overlapped client call p) <
      (backlog n).ofWorker (.calling overlapped client call) := by
  cases call with
  | receiveReady => exact (by decide : 2 < 3)
  | send => exact (by decide : 4 < 5)

theorem backlog_after_lt (overlapped p : Pointer) (client : ℕ)
    (call : Call) :
    (backlog n).ofWorker (call.after overlapped client) <
      (backlog n).ofWorker (.popped overlapped client call p) := by
  cases call with
  | receiveReady => exact (by decide : 1 < 2)
  | send => exact (by decide : 3 < 4)

/-- A worker that gets ahead leaves less to do. -/
theorem total_lt_of_worker {s' : State n} {w : Fin n} {next : Worker}
    (hless : (backlog n).ofWorker next < (backlog n).ofWorker (s.workers w))
    (hworkers : s'.workers = Function.update s.workers w next)
    (hposted : (backlog n).ofPosted s'.posted = (backlog n).ofPosted s.posted)
    (hmain : s'.main = s.main) :
    (backlog n).total s' < (backlog n).total s := by
  have hupdate := (backlog n).ofWorkers_update s.workers w next
  simp only [Weight.total, hworkers, hposted, hmain, backlog_ofQueue]
  omega

theorem total_lt_of_main {s' : State n}
    (hless : (backlog n).ofMain s'.main < (backlog n).ofMain s.main)
    (hworkers : (backlog n).ofWorkers s'.workers ≤
      (backlog n).ofWorkers s.workers)
    (hposted : (backlog n).ofPosted s'.posted =
      (backlog n).ofPosted s.posted) :
    (backlog n).total s' < (backlog n).total s := by
  simp only [Weight.total, hposted, backlog_ofQueue]
  omega

theorem left_lt_of_total (hcrash : s'.crash = s.crash)
    (h : (backlog n).total s' < (backlog n).total s) : s'.left < s.left := by
  rw [State.left, State.left, hcrash]
  omega

theorem left_lt_of_crash (hcrash : s.crash = none)
    (hcrash' : s'.crash ≠ none)
    (h : (backlog n).total s' = (backlog n).total s) : s'.left < s.left := by
  rw [State.left, State.left, h, if_neg hcrash', if_pos hcrash]
  omega

/-- Every step of a thread leaves less to do. -/
theorem left_own_step (hcrash : s.crash = none) (h : Step c handler s e s')
    (hown : e.own = true) : s'.left < s.left := by
  cases h with
  | acceptEnd hmain =>
      refine left_lt_of_total rfl (total_lt_of_main ?_ le_rfl rfl)
      rw [hmain]
      change n - 0 + 1 < 2 * 0 + n + 2
      omega
  | @acceptSkip client clients hmain =>
      refine left_lt_of_total rfl (total_lt_of_main ?_ le_rfl rfl)
      rw [hmain]
      change 2 * clients.length + n + 2 < 2 * (clients.length + 1) + n + 2
      omega
  | acceptNull hmain hpop => exact left_lt_of_crash hcrash (by simp) rfl
  | @acceptPop client clients p hmain hpop =>
      refine left_lt_of_total rfl (total_lt_of_main ?_ le_rfl rfl)
      rw [hmain]
      change 2 * clients.length + n + 3 < 2 * (clients.length + 1) + n + 2
      omega
  | @acceptPost client clients p hmain =>
      refine left_lt_of_total rfl (total_lt_of_main ?_ le_rfl ?_)
      · rw [hmain]
        change 2 * clients.length + n + 2 < 2 * clients.length + n + 3
        omega
      · exact Nat.zero_add _
  | @acceptRefused client clients p hmain =>
      refine left_lt_of_total rfl (total_lt_of_main ?_ le_rfl rfl)
      rw [hmain]
      change 2 * clients.length + n + 2 < 2 * clients.length + n + 3
      omega
  | @spawn ok k hk hmain =>
      refine left_lt_of_total rfl (total_lt_of_main ?_ ?_ rfl)
      · rw [hmain]
        change n - (k + 1) + 1 < n - k + 1
        omega
      · have hworker := (backlog n).ofWorkers_update s.workers ⟨k, hk⟩ .waiting
        change _ = (backlog n).ofWorkers s.workers + 0 at hworker
        change (backlog n).ofWorkers (Function.update s.workers _ _) ≤ _
        omega
  | install hmain hk =>
      refine left_lt_of_total rfl (total_lt_of_main ?_ le_rfl rfl)
      rw [hmain]
      exact Nat.succ_pos _
  | @dequeueFailed w k op hwaiting hget hfailed =>
      have herase := (backlog n).ofPosted_eraseIdx hget
      have hone : (backlog n).ofOperation op = 1 := by
        simp only [backlog, hfailed]
      refine left_lt_of_total rfl ?_
      simp only [Weight.total]
      omega
  | @dequeueDone w k bytesTransferred op hwaiting hget hdone =>
      have herase := (backlog n).ofPosted_eraseIdx hget
      have height : (backlog n).ofOperation op = 8 := by
        simp only [backlog, hdone]
      have hworker := (backlog n).ofWorkers_update s.workers w
        (.dispatching op bytesTransferred)
      rw [hwaiting] at hworker
      change _ + 0 = _ + 7 at hworker
      refine left_lt_of_total rfl ?_
      simp only [Weight.total, State.setWorker]
      omega
  | dispatch hdispatching =>
      refine left_lt_of_total rfl (total_lt_of_worker ?_ rfl rfl rfl)
      rw [hdispatching]
      exact backlog_dispatch_lt _ _ _ _
  | handled hhandling hreaction =>
      refine left_lt_of_total rfl (total_lt_of_worker ?_ rfl rfl rfl)
      rw [hhandling]
      exact backlog_calling_lt _ _ _
  | aborted hhandling haborts => exact left_lt_of_crash hcrash (by simp) rfl
  | @returnEarly w ok answer overlapped client call hcalling hearly =>
      refine left_lt_of_total rfl (total_lt_of_worker ?_ rfl rfl rfl)
      rw [hcalling]
      exact (backlog_after_lt overlapped 0 client call).trans
        (backlog_popped_lt overlapped 0 client call)
  | popNull hcalling hearly hpop =>
      exact left_lt_of_crash hcrash (by simp) rfl
  | pop hcalling hearly hpop =>
      refine left_lt_of_total rfl (total_lt_of_worker ?_ rfl rfl rfl)
      rw [hcalling]
      exact backlog_popped_lt _ _ _ _
  | post hpopped =>
      refine left_lt_of_total rfl (total_lt_of_worker ?_ rfl ?_ rfl)
      · rw [hpopped]
        exact backlog_after_lt _ _ _ _
      · exact Nat.zero_add _
  | refused hpopped =>
      refine left_lt_of_total rfl (total_lt_of_worker ?_ rfl rfl rfl)
      rw [hpopped]
      exact backlog_after_lt _ _ _ _
  | recycle hrecycling =>
      refine left_lt_of_total rfl (total_lt_of_worker ?_ rfl rfl rfl)
      rw [hrecycling]
      exact Nat.one_pos
  | acceptDone | recvDone | sendDone | fail => cases hown

theorem left_le_of_total {k : ℕ} (hcrash : s'.crash = s.crash)
    (h : (backlog n).total s' ≤ (backlog n).total s + k) :
    s'.left ≤ s.left + k := by
  rw [State.left, State.left, hcrash]
  omega

theorem backlog_ofOperation_le (op : Operation) :
    (backlog n).ofOperation op ≤ 8 := by
  simp only [backlog]
  split
  · exact Nat.zero_le 8
  · exact Nat.one_le_ofNat
  · exact le_refl 8

/-- A completion leads to eight steps at most. -/
theorem left_completion_step (h : Step c handler s e s')
    (hown : e.own = false) : s'.left ≤ s.left + 8 := by
  have hset {k : ℕ} {op : Operation} (op' : Operation)
      (hget : s.posted[k]? = some op) :
      (backlog n).ofPosted (s.posted.set k op') ≤
        (backlog n).ofPosted s.posted + 8 := by
    have hsum := sum_set op' (backlog n).ofOperation hget
    change _ + (backlog n).ofPosted _ = _ + (backlog n).ofPosted _ at hsum
    have height : (backlog n).ofOperation op' ≤ 8 := backlog_ofOperation_le op'
    omega
  cases h with
  | @acceptDone k data p client hget hclosed =>
      have hposted := hset ⟨p, .acceptEx, client, some (.done 0)⟩ hget
      refine left_le_of_total rfl ?_
      simp only [Weight.total, State.setObject]
      omega
  | @recvDone k data p client hget hfits hlive =>
      have hposted :=
        hset ⟨p, .wsaRecv, client, some (.done data.length)⟩ hget
      refine left_le_of_total rfl ?_
      simp only [Weight.total, State.setObject]
      omega
  | @sendDone k data p client hget =>
      have hposted :=
        hset ⟨p, .wsaSend, client, some (.done (s.heap p).wire.length)⟩ hget
      refine left_le_of_total rfl ?_
      simp only [Weight.total]
      omega
  | @fail k op hget hnone =>
      have hposted := hset { op with completion := some .failed } hget
      refine left_le_of_total rfl ?_
      simp only [Weight.total]
      omega
  | _ => cases hown

/-- What is left to do pays for the steps of the threads. -/
theorem potential_left (c : Config) (handler : Handler α) (n : ℕ) :
    Potential (State.step c handler) Event.own (fun _ => 8)
      (State.left (n := n)) where
  pays s e s' hstep hown := by
    obtain ⟨hcrash, h⟩ := State.step_cases hstep
    exact left_own_step hcrash h hown
  gains s e s' hstep hown :=
    left_completion_step (State.step_cases hstep).2 hown

/-- The workers that the main thread has got to are started. -/
def Launched (s : State n) : Prop :=
  ∀ w : Fin n, ¬ s.main.Precedes w → s.workers w ≠ .unstarted

theorem dispatch_ne_unstarted (o : CustomOverlapped) (overlapped : Pointer)
    (completionKey bytesTransferred : ℕ) :
    Session.dispatch c o overlapped completionKey bytesTransferred ≠
      .unstarted := by
  rw [Session.dispatch]
  split
  · split <;> simp
  · split
    · split <;> simp
    · simp
  · simp
  · simp

theorem after_ne_unstarted (overlapped : Pointer) (client : ℕ) (call : Call) :
    call.after overlapped client ≠ .unstarted := by
  cases call with
  | receiveReady => simp [Call.after]
  | send => simp [Call.after]

theorem Launched.step (hs : Launched s) (h : Step c handler s e s') :
    Launched s' := by
  have hmoves {w : Fin n} {next : Worker} (hnext : next ≠ .unstarted)
      (v : Fin n) (hv : ¬ s.main.Precedes v) :
      Function.update s.workers w next v ≠ .unstarted := by
    by_cases hvw : v = w
    · subst hvw
      rwa [Function.update_self]
    · rw [Function.update_of_ne hvw]
      exact hs v hv
  intro v hv
  cases h with
  | acceptEnd hmain => exact absurd (Nat.zero_le _) hv
  | acceptSkip | acceptPop | acceptPost | acceptRefused =>
      exact absurd trivial hv
  | @spawn ok k hk hmain =>
      change Function.update s.workers ⟨k, hk⟩ .waiting v ≠ .unstarted
      by_cases hvk : v = ⟨k, hk⟩
      · subst hvk
        rw [Function.update_self]
        simp
      · rw [Function.update_of_ne hvk]
        apply hs v
        rw [hmain]
        intro hle
        have hlt : ¬ k + 1 ≤ (v : ℕ) := hv
        have hk' : k ≤ (v : ℕ) := hle
        exact hvk (Fin.ext (by simp; omega))
  | @install ok k hmain hk =>
      apply hs v
      rw [hmain]
      intro hle
      have hk' : k ≤ (v : ℕ) := hle
      omega
  | dequeueDone => exact hmoves (by simp) v hv
  | dispatch => exact hmoves (dispatch_ne_unstarted _ _ _ _) v hv
  | handled => exact hmoves (by simp) v hv
  | returnEarly | post | refused =>
      exact hmoves (after_ne_unstarted _ _ _) v hv
  | pop => exact hmoves (by simp) v hv
  | recycle => exact hmoves (by simp) v hv
  | _ => exact hs v hv

end RankingServer.Network
