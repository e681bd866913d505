import RankingServer.Foundation.Potential
import RankingServer.Network.QueueThreads

/-!
# What races cannot do to the pool

Unsynchronised calls of `push` and `pop` hand one object to two workers and lose
others.  They do no worse: whatever the number of workers and the order of their
accesses, every access stays inside the buffer, no cell is read before an object
was written to it, and every pointer that is handed out or posted is an object
of the pool.  A null pointer comes only from a pop that found the queue empty.

Nor can the workers hold one another up.  The calls have no loops, so a worker
is done with a completion after fourteen steps of its own, and whatever the
others do, its next step is there to be taken.
-/

namespace RankingServer.Network.QueueThreads

open Utility Transition

variable {n : ℕ} {q q' : LockFreeCircleQueue (Option Pointer)}
  {s s' : State n} {w : Fin n}

/-! ## The cells -/

/-- The pointer is one of the objects that `NetworkManager::Initialize` got into
the pool. -/
def Owned (q : LockFreeCircleQueue (Option Pointer)) (p : Pointer) : Prop :=
  p + 1 < q.mQueueMaxSize

/-- An object was written to the cell. -/
def Filled (q : LockFreeCircleQueue (Option Pointer)) (i : ℕ) : Prop :=
  ∃ p, q.mBuffer i = some p ∧ Owned q p

/-- Only the last cell may not have been written to, and only while it is the
next to be written to. -/
structure Stocked (q : LockFreeCircleQueue (Option Pointer)) : Prop where
  cells : ∀ i, i + 1 < q.mQueueMaxSize → Filled q i
  last : q.mInputIndex + 1 ≠ q.mQueueMaxSize → Filled q (q.mQueueMaxSize - 1)

theorem Stocked.filled (h : Stocked q) {i : ℕ} (hi : i < q.mQueueMaxSize)
    (hne : i ≠ q.mInputIndex) : Filled q i := by
  by_cases hlast : i + 1 = q.mQueueMaxSize
  · have hinput : q.mInputIndex + 1 ≠ q.mQueueMaxSize := by omega
    have heq : q.mQueueMaxSize - 1 = i := by omega
    exact heq ▸ h.last hinput
  · exact h.cells i (by omega)

/-- The second queue has all objects that the first one has. -/
structure Keeps (q q' : LockFreeCircleQueue (Option Pointer)) : Prop where
  size : q'.mQueueMaxSize = q.mQueueMaxSize
  filled : ∀ i, Filled q i → Filled q' i

theorem Keeps.owned (h : Keeps q q') {p : Pointer} (hp : Owned q p) :
    Owned q' p := by
  rw [Owned, h.size]
  exact hp

theorem keeps_writeCell {o : Pointer} (ho : Owned q o) (i : ℕ) :
    Keeps q (q.writeCell i (some o)) := by
  refine ⟨rfl, ?_⟩
  rintro j ⟨p, hp, hown⟩
  by_cases hji : j = i
  · subst hji
    exact ⟨o, Function.update_self _ _ _, ho⟩
  · exact ⟨p, (Function.update_of_ne hji _ _).trans hp, hown⟩

theorem filled_writeCell {o : Pointer} (ho : Owned q o) (i : ℕ) :
    Filled (q.writeCell i (some o)) i :=
  ⟨o, Function.update_self _ _ _, ho⟩

/-! ## The workers -/

/-- The index at hand lies in the buffer, and the cell to be read was written
to.  A push that is about to make an object visible has either written the last
cell or found an input index that had passed it. -/
def Next.Safe (q : LockFreeCircleQueue (Option Pointer)) : Next → Prop
  | .pushCompare current | .pushWrite current =>
      current < q.mQueueMaxSize ∧
        (current + 1 ≠ q.mQueueMaxSize → Filled q (q.mQueueMaxSize - 1))
  | .pushStore current =>
      current < q.mQueueMaxSize ∧ Filled q (q.mQueueMaxSize - 1)
  | .popCompare current => current < q.mQueueMaxSize
  | .popRead current => current < q.mQueueMaxSize ∧ Filled q current
  | .popStore current data =>
      current < q.mQueueMaxSize ∧ ∃ p, data = some p ∧ Owned q p

def Worker.Safe (q : LockFreeCircleQueue (Option Pointer)) (worker : Worker) :
    Prop :=
  (∀ o ∈ worker.held, Owned q o) ∧ ∀ next ∈ worker.next, next.Safe q

theorem Next.Safe.keeps {next : Next} (h : next.Safe q) (hkeeps : Keeps q q') :
    next.Safe q' := by
  have hsize := hkeeps.size
  cases next with
  | pushCompare current | pushWrite current =>
      obtain ⟨hlt, hlast⟩ := h
      refine ⟨by omega, ?_⟩
      intro hne
      rw [hsize] at hne ⊢
      exact hkeeps.filled _ (hlast hne)
  | pushStore current =>
      obtain ⟨hlt, hlast⟩ := h
      refine ⟨by omega, ?_⟩
      rw [hsize]
      exact hkeeps.filled _ hlast
  | popCompare current => exact lt_of_lt_of_eq h hsize.symm
  | popRead current =>
      exact ⟨lt_of_lt_of_eq h.1 hsize.symm, hkeeps.filled _ h.2⟩
  | popStore current data =>
      obtain ⟨hlt, p, hdata, hp⟩ := h
      exact ⟨lt_of_lt_of_eq hlt hsize.symm, p, hdata, hkeeps.owned hp⟩

theorem Worker.Safe.keeps {worker : Worker} (h : worker.Safe q)
    (hkeeps : Keeps q q') : worker.Safe q' :=
  ⟨fun o ho => hkeeps.owned (h.1 o ho),
    fun next hnext => (h.2 next hnext).keeps hkeeps⟩

/-- What holds in every run, whatever the workers do to one another. -/
structure Safe (s : State n) : Prop where
  queue : Stocked s.queue
  outstanding : ∀ op ∈ s.outstanding, Owned s.queue op.overlapped
  popped : ∀ p ∈ s.popped, Owned s.queue p
  workers : ∀ w, (s.workers w).Safe s.queue

/-! ## The steps -/

/-- A step of one worker, as far as safety is concerned. -/
theorem Safe.update (hs : Safe s) (hkeeps : Keeps s.queue s'.queue)
    (hqueue : Stocked s'.queue) {new : Worker} (hnew : new.Safe s'.queue)
    (hworkers : s'.workers = Function.update s.workers w new)
    (houtstanding : ∀ op ∈ s'.outstanding, Owned s.queue op.overlapped)
    (hpopped : ∀ p ∈ s'.popped, Owned s.queue p) : Safe s' := by
  refine ⟨hqueue, fun op hop => hkeeps.owned (houtstanding op hop),
    fun p hp => hkeeps.owned (hpopped p hp), ?_⟩
  intro v
  rw [hworkers]
  by_cases hvw : v = w
  · subst hvw
    rwa [Function.update_self]
  · rw [Function.update_of_ne hvw]
    exact (hs.workers v).keeps hkeeps

theorem keeps_refl (q : LockFreeCircleQueue (Option Pointer)) : Keeps q q :=
  ⟨rfl, fun _ h => h⟩

/-- The worker goes on without touching the queue. -/
theorem Safe.setWorker (hs : Safe s) {new : Worker}
    (hnew : new.Safe s.queue) : Safe (s.setWorker w new) :=
  hs.update (keeps_refl _) hs.queue hnew rfl hs.outstanding hs.popped

theorem Stocked.storeInputIndex (h : Stocked q)
    (hlast : Filled q (q.mQueueMaxSize - 1)) (i : ℕ) :
    Stocked (q.storeInputIndex i) :=
  ⟨h.cells, fun _ => hlast⟩

theorem Stocked.writeCell (h : Stocked q) {o : Pointer} (ho : Owned q o)
    (i : ℕ) : Stocked (q.writeCell i (some o)) :=
  ⟨fun j hj => (keeps_writeCell ho i).filled j (h.cells j hj),
    fun hne => (keeps_writeCell ho i).filled _ (h.last hne)⟩

theorem Safe.access (hs : Safe s) (h : QueueThreads.access s w = some s') :
    Safe s' := by
  have hworker := hs.workers w
  cases hw : s.workers w with
  | waiting => simp [QueueThreads.access, hw] at h
  | posting => simp [QueueThreads.access, hw] at h
  | faulted => simp [QueueThreads.access, hw] at h
  | handling o slot tasks =>
      rw [hw] at hworker
      -- the call loads its own index
      cases tasks with
      | nil => simp [QueueThreads.access, hw] at h
      | cons task tasks =>
          cases task with
          | recycle =>
              simp only [QueueThreads.access, hw, Option.some.injEq] at h
              subst h
              refine hs.setWorker ⟨hworker.1, ?_⟩
              rintro _ ⟨⟩
              exact ⟨s.queue.inputIndex_lt, hs.queue.last⟩
          | send | receive =>
              simp only [QueueThreads.access, hw, Option.some.injEq] at h
              subst h
              refine hs.setWorker ⟨hworker.1, ?_⟩
              rintro _ ⟨⟩
              exact s.queue.outputIndex_lt
  | calling o slot task tasks next =>
      rw [hw] at hworker
      obtain ⟨hheld, hnext⟩ := hworker
      have ho : Owned s.queue o := hheld o (List.mem_singleton_self o)
      have hsafe : next.Safe s.queue := hnext next rfl
      cases next with
      | pushCompare current =>
          by_cases hfull : s.queue.nextIndex current = s.queue.mOutputIndex
          · simp only [QueueThreads.access, hw, if_pos hfull,
              Option.some.injEq] at h
            subst h
            exact hs.setWorker ⟨by simp [Worker.held], by simp [Worker.next]⟩
          · simp only [QueueThreads.access, hw, if_neg hfull,
              Option.some.injEq] at h
            subst h
            refine hs.setWorker ⟨hheld, ?_⟩
            rintro _ ⟨⟩
            exact hsafe
      | pushWrite current =>
          simp only [QueueThreads.access, hw, Option.some.injEq] at h
          subst h
          have hkeeps := keeps_writeCell ho current
          refine hs.update hkeeps (hs.queue.writeCell ho current) ?_ rfl
            hs.outstanding hs.popped
          refine ⟨hheld, ?_⟩
          rintro _ ⟨⟩
          refine ⟨hsafe.1, ?_⟩
          by_cases hlast : current + 1 = s.queue.mQueueMaxSize
          · have heq : s.queue.mQueueMaxSize - 1 = current := by omega
            change Filled _ (s.queue.mQueueMaxSize - 1)
            rw [heq]
            exact filled_writeCell ho current
          · exact hkeeps.filled _ (hsafe.2 hlast)
      | pushStore current =>
          simp only [QueueThreads.access, hw, Option.some.injEq] at h
          subst h
          exact hs.update ⟨rfl, fun _ h => h⟩
            (hs.queue.storeInputIndex hsafe.2 current)
            ⟨by simp [Worker.held], by simp [Worker.next]⟩ rfl hs.outstanding
            hs.popped
      | popCompare current =>
          by_cases hempty : current = s.queue.mInputIndex
          · simp only [QueueThreads.access, hw, if_pos hempty,
              Option.some.injEq] at h
            subst h
            exact hs.setWorker ⟨hheld, by simp [Worker.next]⟩
          · simp only [QueueThreads.access, hw, if_neg hempty,
              Option.some.injEq] at h
            subst h
            refine hs.setWorker ⟨hheld, ?_⟩
            rintro _ ⟨⟩
            exact ⟨hsafe, hs.queue.filled hsafe hempty⟩
      | popRead current =>
          simp only [QueueThreads.access, hw, Option.some.injEq] at h
          subst h
          refine hs.setWorker ⟨hheld, ?_⟩
          rintro _ ⟨⟩
          exact hsafe
      | popStore current data =>
          obtain ⟨hlt, p, rfl, hp⟩ := hsafe
          simp only [QueueThreads.access, hw, Option.some.injEq] at h
          subst h
          refine hs.update ⟨rfl, fun _ h => h⟩ ⟨hs.queue.cells, hs.queue.last⟩
            ?_ rfl hs.outstanding ?_
          · refine ⟨?_, by simp [Worker.next]⟩
            simp only [Worker.held, List.forall_mem_cons]
            exact ⟨ho, hp, by simp⟩
          · intro p' hp'
            rcases List.mem_append.mp hp' with hp' | hp'
            · exact hs.popped p' hp'
            · obtain rfl := List.mem_singleton.mp hp'
              exact hp

theorem Safe.step {e : Event n} (hs : Safe s)
    (h : QueueThreads.step s e = some s') : Safe s' := by
  cases e with
  | access w => exact hs.access h
  | dequeue w k failed replies socketOk =>
      simp only [QueueThreads.step] at h
      split at h
      · next op hwaiting hget =>
          have hop := hs.outstanding op (List.mem_of_getElem? hget)
          have herase : ∀ op ∈ s.outstanding.eraseIdx k,
              Owned s.queue op.overlapped :=
            fun op hop => hs.outstanding op (List.mem_of_mem_eraseIdx hop)
          cases failed with
          | true =>
              simp only [if_true, Option.some.injEq] at h
              subst h
              exact ⟨hs.queue, herase, hs.popped, hs.workers⟩
          | false =>
              simp only [Bool.false_eq_true, if_false, Option.some.injEq] at h
              subst h
              refine hs.update (keeps_refl _) hs.queue ?_ rfl herase hs.popped
              refine ⟨?_, by simp [Worker.next]⟩
              intro o ho
              obtain rfl := List.mem_singleton.mp ho
              exact hop
      · cases h
  | post w ok =>
      cases hw : s.workers w with
      | posting o slot task tasks p =>
          have hheld := (hs.workers w).1
          rw [hw] at hheld
          simp only [Worker.held, List.forall_mem_cons] at hheld
          have hnew : (Worker.handling o slot tasks).Safe s.queue := by
            refine ⟨?_, by simp [Worker.next]⟩
            intro o' ho'
            obtain rfl := List.mem_singleton.mp ho'
            exact hheld.1
          simp only [QueueThreads.step, hw] at h
          cases ok with
          | true =>
              simp only [if_true, Option.some.injEq] at h
              subst h
              refine hs.update (keeps_refl _) hs.queue hnew rfl ?_ hs.popped
              intro op hop
              rcases List.mem_append.mp hop with hop | hop
              · exact hs.outstanding op hop
              · obtain rfl := List.mem_singleton.mp hop
                exact hheld.2.1
          | false =>
              simp only [Bool.false_eq_true, if_false, Option.some.injEq] at h
              subst h
              exact hs.setWorker hnew
      | _ => simp [QueueThreads.step, hw] at h

/-! ## Every run -/

theorem mOutputIndex_pushAll {T : Type*} (q : LockFreeCircleQueue T)
    (data : List T) : (q.pushAll data).mOutputIndex = q.mOutputIndex := by
  induction data generalizing q with
  | nil => rfl
  | cons d data ih =>
      have hpush : (q.push d).1.mOutputIndex = q.mOutputIndex := by
        rw [LockFreeCircleQueue.push]
        split <;> rfl
      exact (ih _).trans hpush

theorem stocked_overlappedQueue (size : ℕ) (hpos : 0 < size) :
    Stocked (overlappedQueue size hpos) := by
  have hout : (overlappedQueue size hpos).mOutputIndex = 0 :=
    mOutputIndex_pushAll _ _
  have hsize := mQueueMaxSize_overlappedQueue size hpos
  have hcontents := contents_overlappedQueue size hpos
  have hwaiting : (overlappedQueue size hpos).waiting = size - 1 := by
    rw [← LockFreeCircleQueue.length_contents, hcontents, List.length_map,
      List.length_range]
  constructor
  · intro i hi
    rw [hsize] at hi
    have hget := congrArg (fun l => l[i]?) hcontents
    simp only [LockFreeCircleQueue.contents, hwaiting, List.getElem?_map,
      List.getElem?_range (by omega : i < size - 1), Option.map_some,
      LockFreeCircleQueue.cellAt, hout, hsize, Nat.zero_add,
      Nat.mod_eq_of_lt (by omega : i < size), Option.some.injEq] at hget
    refine ⟨i, hget, ?_⟩
    rwa [Owned, hsize]
  · intro hne
    rcases (overlappedQueue size hpos).waiting_cases with ⟨-, heq⟩ | ⟨hlt, -⟩
    · rw [hwaiting, hout] at heq
      rw [hsize] at hne
      omega
    · rw [hout] at hlt
      cases hlt

theorem Safe.acceptReady (hs : Safe s) (slot : ℕ) :
    Safe (acceptReady s slot) := by
  rw [QueueThreads.acceptReady, LockFreeCircleQueue.pop]
  by_cases hempty : s.queue.mOutputIndex = s.queue.mInputIndex
  · rw [if_pos hempty]
    exact hs
  · rw [if_neg hempty]
    obtain ⟨p, hp, hown⟩ :=
      hs.queue.filled s.queue.outputIndex_lt hempty
    simp only [hp]
    refine ⟨⟨hs.queue.cells, hs.queue.last⟩, ?_, ?_, ?_⟩
    · intro op hop
      rcases List.mem_append.mp hop with hop | hop
      · exact hs.outstanding op hop
      · obtain rfl := List.mem_singleton.mp hop
        exact hown
    · intro p' hp'
      rcases List.mem_append.mp hp' with hp' | hp'
      · exact hs.popped p' hp'
      · obtain rfl := List.mem_singleton.mp hp'
        exact hown
    · intro v
      exact (hs.workers v).keeps ⟨rfl, fun _ h => h⟩

theorem safe_ready (n size : ℕ) (hpos : 0 < size) (socketMax : ℕ) :
    Safe (ready n size hpos socketMax) := by
  have hfold (slots : List ℕ) (s : State n) (hs : Safe s) :
      Safe (slots.foldl QueueThreads.acceptReady s) := by
    induction slots generalizing s with
    | nil => exact hs
    | cons slot slots ih => exact ih _ (hs.acceptReady slot)
  apply hfold
  exact ⟨stocked_overlappedQueue size hpos, by simp, by simp,
    fun w => ⟨by simp [Worker.held], by simp [Worker.next]⟩⟩

/-- However the accesses of any number of workers interleave, they stay inside
the buffer, they read only cells that an object was written to, and every object
that is handed out, held or posted is one of the pool. -/
theorem safe_of_reachable (h : Reachable step Started unguarded s) :
    Safe s := by
  apply h.invariant
  · rintro s ⟨size, hpos, socketMax, rfl⟩
    exact safe_ready n size hpos socketMax
  · intro s e s' hs _ hstep
    exact hs.step hstep

/-- The run in which two workers are handed the same object. -/
theorem safe_of_reachable_lockstepPops :
    ∃ s, run step twoWorkers (lockstepPops 0 1) = some s ∧
      (s.workers 0).held = [0, 10] ∧ (s.workers 1).held = [1, 10] ∧
        Safe s := by
  have hheld : (run step twoWorkers (lockstepPops 0 1)).map
      (fun s => ((s.workers 0).held, (s.workers 1).held)) =
        some ([0, 10], [1, 10]) := by
    decide +kernel
  obtain ⟨s, hrun, hpair⟩ := Option.map_eq_some_iff.mp hheld
  rw [Prod.mk.injEq] at hpair
  have hstart : Reachable step Started unguarded twoWorkers :=
    .start ⟨_, _, _, rfl⟩
  exact ⟨s, hrun, hpair.1, hpair.2,
    safe_of_reachable (.of_unguarded_run hstart hrun)⟩

/-! ## No worker waits for another -/

/-- The steps of worker `w` on the completion at hand. -/
def Event.own (w : Fin n) : Event n → Bool
  | .access v | .post v _ => v = w
  | .dequeue _ _ _ _ _ => false

def Event.dequeues (w : Fin n) : Event n → Bool
  | .dequeue v _ _ _ _ => v = w
  | .access _ | .post _ _ => false

/-- Four accesses and, after a pop, the posting of the object. -/
def Task.left : Task → ℕ
  | .send | .receive => 5
  | .recycle => 4

def Next.left : Next → ℕ
  | .pushCompare _ => 3
  | .pushWrite _ => 2
  | .pushStore _ => 1
  | .popCompare _ => 4
  | .popRead _ => 3
  | .popStore _ _ => 2

/-- The steps left for the completion at hand. -/
def Worker.left : Worker → ℕ
  | .waiting | .faulted _ => 0
  | .handling _ _ tasks => (tasks.map Task.left).sum
  | .calling _ _ _ tasks next => next.left + (tasks.map Task.left).sum
  | .posting _ _ _ tasks _ => 1 + (tasks.map Task.left).sum

theorem left_processTasks_le (kind : OperationType) (replies socketOk : Bool) :
    ((processTasks kind replies socketOk).map Task.left).sum ≤ 14 := by
  revert kind replies socketOk
  intro kind
  cases kind <;> decide

/-- Only the recycling ends the work on a completion. -/
def Worker.Closed : Worker → Prop
  | .handling _ _ tasks | .posting _ _ _ tasks _
  | .calling _ _ _ tasks (.popCompare _)
  | .calling _ _ _ tasks (.popRead _)
  | .calling _ _ _ tasks (.popStore _ _) => tasks.getLast? = some .recycle
  | _ => True

theorem closed_processTasks (kind : OperationType) (replies socketOk : Bool) :
    (processTasks kind replies socketOk).getLast? = some .recycle := by
  revert replies socketOk
  cases kind <;> decide

theorem closed_tail {task : Task} {tasks : List Task}
    (h : (task :: tasks).getLast? = some .recycle) (htask : task ≠ .recycle) :
    tasks.getLast? = some .recycle := by
  cases tasks with
  | nil => exact absurd (Option.some.inj h) htask
  | cons next tasks => rwa [List.getLast?_cons_cons] at h

/-- An access is a step of one worker, which is left with fewer. -/
theorem exists_worker_of_access (h : access s w = some s') :
    ∃ new, s'.workers = Function.update s.workers w new ∧
      new.left < (s.workers w).left ∧
        ((s.workers w).Closed → new.Closed) := by
  cases hw : s.workers w with
  | waiting => simp [access, hw] at h
  | posting => simp [access, hw] at h
  | faulted => simp [access, hw] at h
  | handling o slot tasks =>
      cases tasks with
      | nil => simp [access, hw] at h
      | cons task tasks =>
          cases task with
          | recycle =>
              simp only [access, hw, Option.some.injEq] at h
              subst h
              exact ⟨_, rfl, by simp [Worker.left, Task.left, Next.left],
                fun _ => trivial⟩
          | send | receive =>
              simp only [access, hw, Option.some.injEq] at h
              subst h
              exact ⟨_, rfl, by simp [Worker.left, Task.left, Next.left],
                fun hclosed => closed_tail hclosed (by simp)⟩
  | calling o slot task tasks next =>
      cases next with
      | pushCompare current | popCompare current =>
          simp only [access, hw] at h
          split at h
          · obtain rfl := Option.some.inj h
            exact ⟨_, rfl, by simp [Worker.left, Next.left], fun _ => trivial⟩
          · obtain rfl := Option.some.inj h
            exact ⟨_, rfl, by simp [Worker.left, Next.left], id⟩
      | pushWrite current | pushStore current =>
          simp only [access, hw, Option.some.injEq] at h
          subst h
          exact ⟨_, rfl, by simp [Worker.left, Next.left], fun _ => trivial⟩
      | popRead current =>
          simp only [access, hw, Option.some.injEq] at h
          subst h
          exact ⟨_, rfl, by simp [Worker.left, Next.left], id⟩
      | popStore current data =>
          cases data with
          | none =>
              simp only [access, hw, Option.some.injEq] at h
              subst h
              exact ⟨_, rfl, by simp [Worker.left, Next.left], fun _ => trivial⟩
          | some p =>
              simp only [access, hw, Option.some.injEq] at h
              subst h
              exact ⟨_, rfl, by simp [Worker.left, Next.left], id⟩

/-- So is the posting of an object. -/
theorem exists_worker_of_post {ok : Bool}
    (h : step s (.post w ok) = some s') :
    ∃ new, s'.workers = Function.update s.workers w new ∧
      new.left < (s.workers w).left ∧
        ((s.workers w).Closed → new.Closed) := by
  cases hw : s.workers w with
  | posting o slot task tasks p =>
      refine ⟨.handling o slot tasks, ?_, by simp [Worker.left], id⟩
      simp only [step, hw] at h
      split at h
      · exact (Option.some.inj h) ▸ rfl
      · exact (Option.some.inj h) ▸ rfl
  | _ => simp [step, hw] at h

/-- A worker dequeues only when it has nothing to do, and comes away with at
most fourteen steps. -/
theorem exists_worker_of_dequeue {k : ℕ} {failed replies socketOk : Bool}
    (h : step s (.dequeue w k failed replies socketOk) = some s') :
    ∃ new, s'.workers = Function.update s.workers w new ∧ new.left ≤ 14 ∧
      new.Closed := by
  simp only [step] at h
  split at h
  · next op hwaiting hget =>
      split at h
      · obtain rfl := Option.some.inj h
        refine ⟨.waiting, ?_, Nat.zero_le _, trivial⟩
        exact (Function.update_eq_self_iff.mpr hwaiting.symm).symm
      · obtain rfl := Option.some.inj h
        exact ⟨_, rfl, left_processTasks_le op.kind replies socketOk,
          closed_processTasks op.kind replies socketOk⟩
  · cases h

/-- The worker whose step it is. -/
def Event.worker : Event n → Fin n
  | .dequeue w _ _ _ _ | .access w | .post w _ => w

theorem workers_of_step {e : Event n} (h : step s e = some s')
    (hne : w ≠ e.worker) : s'.workers w = s.workers w := by
  cases e with
  | access v =>
      obtain ⟨new, hworkers, -⟩ := exists_worker_of_access h
      rw [hworkers]
      exact Function.update_of_ne hne _ _
  | post v ok =>
      obtain ⟨new, hworkers, -⟩ := exists_worker_of_post h
      rw [hworkers]
      exact Function.update_of_ne hne _ _
  | dequeue v k failed replies socketOk =>
      obtain ⟨new, hworkers, -⟩ := exists_worker_of_dequeue h
      rw [hworkers]
      exact Function.update_of_ne hne _ _

theorem closed_step {e : Event n} (hclosed : ∀ w, (s.workers w).Closed)
    (h : step s e = some s') (w : Fin n) : (s'.workers w).Closed := by
  by_cases hw : w = e.worker
  · cases e with
    | access v =>
        obtain ⟨new, hworkers, -, hnew⟩ := exists_worker_of_access h
        rw [hw, hworkers, Event.worker, Function.update_self]
        exact hnew (hclosed v)
    | post v ok =>
        obtain ⟨new, hworkers, -, hnew⟩ := exists_worker_of_post h
        rw [hw, hworkers, Event.worker, Function.update_self]
        exact hnew (hclosed v)
    | dequeue v k failed replies socketOk =>
        obtain ⟨new, hworkers, -, hnew⟩ := exists_worker_of_dequeue h
        rw [hw, hworkers, Event.worker, Function.update_self]
        exact hnew
  · rw [workers_of_step h hw]
    exact hclosed w

/-- A dequeued completion pays for the steps that it leads to. -/
theorem potential_left (w : Fin n) :
    Potential step (Event.own w)
      (fun e => if e.dequeues w then 14 else 0)
      fun s => (s.workers w).left := by
  constructor
  · intro s e s' h hown
    cases e with
    | access v =>
        obtain rfl := of_decide_eq_true hown
        obtain ⟨new, hworkers, hless, -⟩ := exists_worker_of_access h
        rwa [hworkers, Function.update_self]
    | post v ok =>
        obtain rfl := of_decide_eq_true hown
        obtain ⟨new, hworkers, hless, -⟩ := exists_worker_of_post h
        rwa [hworkers, Function.update_self]
    | dequeue => cases hown
  · intro s e s' h hown
    by_cases hw : w = e.worker
    · subst hw
      cases e with
      | access | post => simp [Event.own, Event.worker] at hown
      | dequeue v k failed replies socketOk =>
          obtain ⟨new, hworkers, hle, -⟩ := exists_worker_of_dequeue h
          simp only [Event.worker, Event.dequeues, decide_true, if_true,
            hworkers, Function.update_self]
          omega
    · rw [workers_of_step h hw]
      exact Nat.le_add_right _ _

/-- A worker in the middle of a completion can always take its next step. -/
theorem stopped_of_atRest (hclosed : (s.workers w).Closed)
    (hrest : AtRest step (Event.own w) s) :
    s.workers w = .waiting ∨ ∃ o, s.workers w = .faulted o := by
  have haccess : access s w = none := hrest (.access w) (decide_eq_true rfl)
  have hpost := hrest (.post w true) (decide_eq_true rfl)
  cases hw : s.workers w with
  | waiting => exact .inl rfl
  | faulted o => exact .inr ⟨o, rfl⟩
  | posting o slot task tasks p => simp [step, hw] at hpost
  | handling o slot tasks =>
      rw [hw] at hclosed
      cases tasks with
      | nil => cases hclosed
      | cons task tasks => cases task <;> simp [access, hw] at haccess
  | calling o slot task tasks next =>
      cases next with
      | pushCompare current | popCompare current =>
          simp only [access, hw] at haccess
          split at haccess <;> cases haccess
      | pushWrite | pushStore | popRead => simp [access, hw] at haccess
      | popStore current data =>
          cases data <;> simp [access, hw] at haccess

theorem waiting_acceptReady (hwaiting : ∀ w, s.workers w = .waiting)
    (slot : ℕ) (w : Fin n) : (acceptReady s slot).workers w = .waiting := by
  rw [acceptReady]
  split <;> exact hwaiting w

theorem waiting_ready (n size : ℕ) (hpos : 0 < size) (socketMax : ℕ)
    (w : Fin n) : (ready n size hpos socketMax).workers w = .waiting := by
  have hfold (slots : List ℕ) (s : State n)
      (hs : ∀ w, s.workers w = .waiting) :
      ∀ w, (slots.foldl acceptReady s).workers w = .waiting := by
    induction slots generalizing s with
    | nil => exact hs
    | cons slot slots ih => exact ih _ (waiting_acceptReady hs slot)
  exact hfold _ _ (fun _ => rfl) w

/-- The pool is wait-free.  However the steps interleave, a worker takes at most
fourteen for each completion it dequeues, and as long as it is neither waiting
for a completion nor stopped by a null pointer it can take the next one. -/
theorem wait_free {s₀ : State n} {es : List (Event n)} (hstart : Started s₀)
    (hrun : run step s₀ es = some s) (w : Fin n) :
    es.countP (Event.own w) ≤ 14 * es.countP (Event.dequeues w) ∧
      (AtRest step (Event.own w) s →
        s.workers w = .waiting ∨ ∃ o, s.workers w = .faulted o) := by
  obtain ⟨size, hpos, socketMax, rfl⟩ := hstart
  have hwaiting := waiting_ready n size hpos socketMax
  constructor
  · have hpaid := (potential_left w).countP_le hrun
    have hincome := income_ite_le (Event.own w) (Event.dequeues w) 14 es
    rw [hwaiting w, Worker.left] at hpaid
    omega
  · have hreach : Reachable step Started unguarded s :=
      .of_unguarded_run (.start ⟨size, hpos, socketMax, rfl⟩) hrun
    have hclosed : ∀ w, (s.workers w).Closed := by
      apply hreach.invariant
      · rintro s ⟨size, hpos, socketMax, rfl⟩ v
        rw [waiting_ready]
        trivial
      · intro s e s' hs _ hstep
        exact closed_step hs hstep
    exact stopped_of_atRest (hclosed w)

/-- The two workers in lockstep: four steps of the fourteen are taken, and the
next one is there. -/
theorem wait_free_lockstepPops :
    ∃ s, run step twoWorkers (lockstepPops 0 1) = some s ∧
      (lockstepPops 0 1).countP (Event.own 0) ≤
        14 * (lockstepPops 0 1).countP (Event.dequeues 0) ∧
          ¬ AtRest step (Event.own 0) s := by
  have hworker : (run step twoWorkers (lockstepPops 0 1)).map (·.workers 0) =
      some (.posting 0 1 .receive [.recycle] 10) := by
    decide +kernel
  obtain ⟨s, hrun, hworker⟩ := Option.map_eq_some_iff.mp hworker
  obtain ⟨hcount, hrest⟩ := wait_free ⟨_, _, _, rfl⟩ hrun 0
  refine ⟨s, hrun, hcount, ?_⟩
  intro h
  rcases hrest h with hwaiting | ⟨o, hfaulted⟩
  · rw [hworker] at hwaiting
    cases hwaiting
  · rw [hworker] at hfaulted
    cases hfaulted

end RankingServer.Network.QueueThreads
