import RankingServer.Network.Buffers

/-!
# Who may touch an object

Between the post of an operation and the return of
`GetQueuedCompletionStatus` the object of the operation belongs to the system;
from then on until it is pushed back it belongs to the worker that dequeued it.
No other thread clears it, writes to it, pushes it, or is handed it by the pool.
-/

namespace RankingServer.Network

open Transition Utility

variable {α : Type*} {n : ℕ} {c : Config} {handler : Handler α}
  {s s' : State n} {e : Event α n} {p : Pointer}

/-- The step is one of a thread, and on the object it calls `Clear`,
`SetHeader`, `SetBody` or `SetOperationType`, pushes it, or receives it from
`pop`. -/
def Touches (c : Config) (s : State n) : Event α n → Pointer → Prop
  | .main ok, p =>
      match s.main with
      | .accepting (_ :: _) => ok = true ∧ s.mOverlappedQueue.pop.2 = some p
      | .popped _ _ q => q = p
      | .accepting [] | .spawning _ | .working => False
  | .work w ok _, p =>
      match s.workers w with
      | .calling _ _ call =>
          ¬ call.ReturnsEarly c ok ∧ s.mOverlappedQueue.pop.2 = some p
      | .popped _ _ _ q => q = p
      | .recycling overlapped => overlapped = p
      | .unstarted | .waiting | .dispatching _ _ | .handling _ _ _ => False
  | .dequeue _ _, _ | .complete _ _, _ | .fail _, _ => False

/-- The object of the completion that a worker is processing. -/
def Worker.completed : Worker → Option Pointer
  | .unstarted | .waiting => none
  | .dispatching op _ => some op.overlapped
  | .handling overlapped _ _ | .calling overlapped _ _
  | .popped overlapped _ _ _ | .recycling overlapped => some overlapped

/-- What the owners of the objects can rely on when a step is taken. -/
structure Untouched (c : Config) (s : State n) (e : Event α n)
    (s' : State n) : Prop where
  outstanding : ∀ op ∈ s.posted, ¬ Touches c s e op.overlapped ∧
    ((∀ k data, e ≠ .complete k data) →
      s'.heap op.overlapped = s.heap op.overlapped)
  completed : ∀ w p, (s.workers w).completed = some p →
    (∀ ok answer, e ≠ .work w ok answer) →
      ¬ Touches c s e p ∧ s'.heap p = s.heap p
  pooled : ∀ p, ¬ Touches c s e p →
    s'.mOverlappedQueue.contents.count (some p) =
      s.mOverlappedQueue.contents.count (some p)

/-! ## What a step can change -/

/-- Apart from the completions, which the system writes, the contents of an
object change only in a step that touches it. -/
theorem heap_step (h : Step c handler s e s') (htouches : ¬ Touches c s e p)
    (hsystem : ∀ k data, e = .complete k data → ∀ op,
      s.posted[k]? = some op → op.overlapped ≠ p) :
    s'.heap p = s.heap p := by
  have hupdate {q : Pointer} (o : CustomOverlapped) (hqp : q ≠ p) :
      Function.update s.heap q o p = s.heap p :=
    Function.update_of_ne (Ne.symm hqp) _ _
  cases h with
  | acceptPost hmain | acceptRefused hmain =>
      simp only [Touches, hmain] at htouches
      exact hupdate _ htouches
  | post hpopped | refused hpopped =>
      simp only [Touches, hpopped] at htouches
      exact hupdate _ htouches
  | recycle hrecycling =>
      simp only [Touches, hrecycling] at htouches
      exact hupdate _ htouches
  | acceptDone hget => exact hupdate _ (hsystem _ _ rfl _ hget)
  | recvDone hget => exact hupdate _ (hsystem _ _ rfl _ hget)
  | _ => rfl

/-- An object enters and leaves the pool only in steps that touch it. -/
theorem count_contents_step (hs : Sound c s) (h : Step c handler s e s')
    (htouches : ¬ Touches c s e p) :
    s'.mOverlappedQueue.contents.count (some p) =
      s.mOverlappedQueue.contents.count (some p) := by
  have hpop {q : Pointer} (hpop : s.mOverlappedQueue.pop.2 = some q)
      (hqp : q ≠ p) : s.mOverlappedQueue.pop.1.contents.count (some p) =
        s.mOverlappedQueue.contents.count (some p) := by
    rw [contents_of_pop_eq_some hpop,
      List.count_cons_of_ne (by simpa using hqp)]
  cases h with
  | acceptPop hmain hnext =>
      refine hpop hnext ?_
      rintro rfl
      simp [Touches, hmain, hnext] at htouches
  | pop hcalling hearly hnext =>
      refine hpop hnext ?_
      rintro rfl
      simp [Touches, hcalling, hearly, hnext] at htouches
  | @recycle w ok answer overlapped hrecycling =>
      have hne : overlapped ≠ p := by
        simpa [Touches, hrecycling] using htouches
      have hpush := (s.mOverlappedQueue.push_of_room (some overlapped)
        (hs.room hrecycling)).2
      rw [hpush, List.count_append,
        List.count_cons_of_ne (by simpa using hne), List.count_nil,
        Nat.add_zero]
  | _ => rfl

/-! ## Where an object is when it is touched -/

/-- The weight that counts the places of one object. -/
def placesOf (p : Pointer) : Weight := holding fun q => if q = p then 1 else 0

theorem one_le_ofQueue {q : LockFreeCircleQueue (Option Pointer)}
    (hpop : q.pop.2 = some p) : 1 ≤ (placesOf p).ofQueue q := by
  rw [(placesOf p).ofQueue_pop hpop]
  have hself : (placesOf p).inQueue p = 1 := if_pos rfl
  omega

theorem one_le_ofWorker_completed {worker : Worker}
    (h : worker.completed = some p) : 1 ≤ (placesOf p).ofWorker worker := by
  have hself : (if p = p then 1 else 0) = 1 := if_pos rfl
  cases worker with
  | unstarted | waiting => cases h
  | dispatching op b =>
      obtain rfl := Option.some.inj h
      exact hself.ge
  | handling | calling | recycling =>
      obtain rfl := Option.some.inj h
      exact hself.ge
  | popped =>
      obtain rfl := Option.some.inj h
      exact le_add_right hself.ge

/-- An object is touched where the pool, the main thread or the worker that
takes the step has it. -/
theorem place_of_touches (h : Touches c s e p) :
    1 ≤ (placesOf p).ofQueue s.mOverlappedQueue ∨
      1 ≤ (placesOf p).ofMain s.main ∨
        ∃ w ok answer, e = .work w ok answer ∧
          1 ≤ (placesOf p).ofWorker (s.workers w) := by
  have hself : (if p = p then 1 else 0) = 1 := if_pos rfl
  cases e with
  | dequeue | complete | fail => exact h.elim
  | main ok =>
      cases hmain : s.main with
      | accepting clients =>
          cases clients with
          | nil =>
              rw [Touches, hmain] at h
              exact h.elim
          | cons slot clients =>
              rw [Touches, hmain] at h
              exact Or.inl (one_le_ofQueue h.2)
      | popped slot clients q =>
          simp only [Touches, hmain] at h
          subst h
          exact Or.inr (Or.inl hself.ge)
      | spawning | working =>
          rw [Touches, hmain] at h
          exact h.elim
  | work w ok answer =>
      cases hw : s.workers w with
      | calling overlapped slot call =>
          simp only [Touches, hw] at h
          exact Or.inl (one_le_ofQueue h.2)
      | popped overlapped slot call q =>
          simp only [Touches, hw] at h
          subst h
          refine Or.inr (Or.inr ⟨w, ok, answer, rfl, ?_⟩)
          rw [hw]
          exact le_add_left hself.ge
      | recycling overlapped =>
          simp only [Touches, hw] at h
          subst h
          refine Or.inr (Or.inr ⟨w, ok, answer, rfl, ?_⟩)
          rw [hw]
          exact hself.ge
      | unstarted | waiting | dispatching | handling =>
          simp only [Touches, hw] at h

/-- The object of a posted operation is not touched. -/
theorem Sound.not_touches_posted (hs : Sound c s) {op : Operation}
    (hop : op ∈ s.posted) : ¬ Touches c s e op.overlapped := by
  intro htouches
  have htotal : (placesOf op.overlapped).total s ≤ 1 :=
    hs.places_le op.overlapped
  have hone : (placesOf op.overlapped).ofOperation op = 1 := if_pos rfl
  have hposted := (placesOf op.overlapped).le_ofPosted hop
  rw [Weight.total] at htotal
  rcases place_of_touches htouches with hqueue | hmain | ⟨w, _, _, _, hworker⟩
  · omega
  · omega
  · have hworkers := (placesOf op.overlapped).le_ofWorkers s.workers w
    omega

/-- The object of a completion is touched by the worker that processes it and by
no other thread. -/
theorem Sound.not_touches_completed (hs : Sound c s) {w : Fin n}
    (hw : (s.workers w).completed = some p)
    (hother : ∀ ok answer, e ≠ .work w ok answer) : ¬ Touches c s e p := by
  intro htouches
  have htotal : (placesOf p).total s ≤ 1 := hs.places_le p
  have hone := one_le_ofWorker_completed hw
  have hworkers := (placesOf p).le_ofWorkers s.workers w
  obtain ⟨-, hmain, hothers⟩ := Weight.worker_alone htotal hone
  rw [Weight.total] at htotal
  rcases place_of_touches htouches with
    hqueue | hmain' | ⟨v, ok, answer, rfl, hv⟩
  · omega
  · omega
  · have hvw : v ≠ w := by
      rintro rfl
      exact hother ok answer rfl
    have hzero := hothers v hvw
    omega

/-- The object of a completion belongs to no posted operation. -/
theorem Sound.ne_of_completed (hs : Sound c s) {w : Fin n}
    (hw : (s.workers w).completed = some p) {op : Operation}
    (hop : op ∈ s.posted) : op.overlapped ≠ p := by
  intro heq
  have htotal : (placesOf p).total s ≤ 1 := hs.places_le p
  obtain ⟨hposted, -, -⟩ :=
    Weight.worker_alone htotal (one_le_ofWorker_completed hw)
  have hone : (placesOf p).ofOperation op = 1 := if_pos heq
  have hzero := hposted op hop
  omega

theorem Sound.untouched (hs : Sound c s) (h : Step c handler s e s') :
    Untouched c s e s' where
  outstanding := by
    intro op hop
    have htouches : ¬ Touches c s e op.overlapped := hs.not_touches_posted hop
    refine ⟨htouches, fun hthread => heap_step h htouches ?_⟩
    intro k data he
    exact absurd he (hthread k data)
  completed := by
    intro w p hw hother
    have htouches : ¬ Touches c s e p := hs.not_touches_completed hw hother
    refine ⟨htouches, heap_step h htouches ?_⟩
    intro k data _ op hget
    exact hs.ne_of_completed hw (List.mem_of_getElem? hget)
  pooled := by
    intro p htouches
    exact count_contents_step hs h htouches

/-! ## Runs -/

/-- In every step of every run the owners are undisturbed. -/
theorem untouched_of_reachable
    (hs : Reachable (State.step c handler) (Started c) unguarded s)
    (hstep : State.step c handler s e = some s') : Untouched c s e s' :=
  (sound_of_reachable hs).1.untouched (State.step_cases hstep).2

/-- While worker 1 is in the receive callback with the first message of the
first client, worker 0 takes the connection of a second one. -/
def secondConnection : List (Event Unit 2) :=
  firstConnection 0 () ++
    [.complete 0 [1, 2, 3], .dequeue 1 0, .work 1 true (), .complete 8 [],
      .dequeue 0 8, .work 0 true ()]

/-- Worker 0 is about to be handed an object, eight accepts are outstanding and
worker 1 reads the body of its message. -/
theorem untouched_secondConnection :
    ∃ s s' : State 2,
      run (State.step mainConfig fun _ _ (_ : Unit) => .returns)
          (initialized 2 mainConfig (fun _ => []) fun _ => [])
          secondConnection = some s ∧
        State.step mainConfig (fun _ _ (_ : Unit) => .returns) s
            (.work 0 true ()) = some s' ∧
        s.posted.length = 8 ∧ (s.workers 1).completed = some 10 ∧
        Touches mainConfig s (.work 0 true () : Event Unit 2) 11 ∧
        Untouched mainConfig s (.work 0 true () : Event Unit 2) s' := by
  have hruns : (run (State.step mainConfig fun _ _ (_ : Unit) => .returns)
      (initialized 2 mainConfig (fun _ => []) fun _ => [])
      secondConnection).map (fun s =>
        (s.posted.length, (s.workers 1).completed, s.workers 0,
          s.mOverlappedQueue.pop.2,
          (State.step mainConfig (fun _ _ (_ : Unit) => .returns) s
            (.work 0 true ())).isSome)) =
      some (8, some 10, .calling 1 2 .receiveReady, some 11, true) := by
    decide +kernel
  obtain ⟨s, hrun, hstate⟩ := Option.map_eq_some_iff.mp hruns
  simp only [Prod.mk.injEq] at hstate
  obtain ⟨hposted, hcompleted, hcalling, hpop, hsome⟩ := hstate
  obtain ⟨s', hstep⟩ := Option.isSome_iff_exists.mp hsome
  refine ⟨s, s', hrun, hstep, hposted, hcompleted, ?_, untouched_of_reachable
    (.of_unguarded_run (.start ⟨_, _, rfl⟩) hrun) hstep⟩
  simp only [Touches, hcalling]
  exact ⟨by simp [Call.ReturnsEarly], hpop⟩

end RankingServer.Network
