import RankingServer.Utility.SingleProducerConsumer

/-!
# Calls of `size` beside a producer and a consumer

A third thread calls `size` while one thread pushes and another one pops.  Each
of its loads of an index is a step of its own.  `size` compares the two indices
that it has loaded; when the input index lies before the output index it loads
the output index once more and computes with this value instead of the one that
it has compared.  In the meantime the consumer may have moved on past the end of
the buffer.
-/

namespace RankingServer.Utility.ConcurrentSize

open Transition

variable {T : Type*}

/-- The thread that calls `size`: between two calls, in front of the load of the
output index for the comparison, or in front of the load of the output index for
the result. -/
inductive Observer
  | idle
  | compare (input : ℕ)
  | wrapped (input : ℕ)

/-- `sizes` lists the values that `size` has returned, oldest first. -/
structure State (T : Type*) where
  threads : SingleProducerConsumer.State T
  observer : Observer
  sizes : List ℤ

/-- `size` begins a call by loading the input index; `observer` is the next load
of the call. -/
inductive Event (T : Type*)
  | thread (e : SingleProducerConsumer.Event T)
  | size
  | observer

/-- The call returns. -/
def State.returns (s : State T) (size : ℤ) : State T :=
  { s with observer := .idle, sizes := s.sizes ++ [size] }

/-- The next load of a call of `size`, with the return when it is the last
one. -/
def observerStep (s : State T) : Option (State T) :=
  let output := s.threads.queue.mOutputIndex
  match s.observer with
  | .idle => none
  | .compare input =>
      if input ≥ output then some (s.returns (input - output))
      else some { s with observer := .wrapped input }
  | .wrapped input =>
      some (s.returns (s.threads.queue.mQueueMaxSize - output + input))

def step (s : State T) : Event T → Option (State T)
  | .thread e =>
      (SingleProducerConsumer.step s.threads e).map fun threads =>
        { s with threads := threads }
  | .size =>
      match s.observer with
      | .idle =>
          some { s with observer := .compare s.threads.queue.mInputIndex }
      | _ => none
  | .observer => observerStep s

/-- The state after `Construct(n)`. -/
def constructed (n : ℕ) (hpos : 0 < n) (garbage : ℕ → T) : State T where
  threads := SingleProducerConsumer.constructed n hpos garbage
  observer := .idle
  sizes := []

def Constructed (n : ℕ) (s : State T) : Prop :=
  ∃ hpos garbage, s = constructed n hpos garbage

/-- A length that a queue of `n` cells can have. -/
def PossibleLength (n : ℕ) (size : ℤ) : Prop := 0 ≤ size ∧ size ≤ n - 1

/-- Every value returned so far is a possible length. -/
def InRange (n : ℕ) (s : State T) : Prop :=
  ∀ size ∈ s.sizes, PossibleLength n size

/-- In front of the load for the result the output index is ahead of the input
index that the call has loaded. -/
def Observer.Behind (output : ℕ) : Observer → Prop
  | .wrapped input => input < output
  | _ => True

/-- The load for the result still finds the output index ahead of the input
index that the call has loaded first. -/
def Ahead (s : State T) : Event T → Prop
  | .observer => s.observer.Behind s.threads.queue.mOutputIndex
  | _ => True

instance (output : ℕ) (observer : Observer) :
    Decidable (observer.Behind output) :=
  match observer with
  | .wrapped input => Nat.decLt input output
  | .idle | .compare _ => .isTrue trivial

instance (s : State T) (e : Event T) : Decidable (Ahead s e) :=
  match e with
  | .observer => inferInstanceAs (Decidable (s.observer.Behind _))
  | .thread _ | .size => .isTrue trivial

/-! ## The steps -/

/-- The input index that a call of `size` has loaded. -/
def Observer.input : Observer → Option ℕ
  | .idle => none
  | .compare input | .wrapped input => some input

structure Inv (n : ℕ) (s : State T) : Prop where
  threads : SingleProducerConsumer.Inv n s.threads
  input_lt : ∀ input, s.observer.input = some input → input < n

theorem Inv.outputIndex_lt {n : ℕ} {s : State T} (h : Inv n s) :
    s.threads.queue.mOutputIndex < n :=
  h.threads.size ▸ s.threads.queue.outputIndex_lt

theorem Inv.inputIndex_lt {n : ℕ} {s : State T} (h : Inv n s) :
    s.threads.queue.mInputIndex < n :=
  h.threads.size ▸ s.threads.queue.inputIndex_lt

/-- What a step can do. -/
inductive Effect (s : State T) : Event T → State T → Prop
  | thread {e : SingleProducerConsumer.Event T}
      {threads : SingleProducerConsumer.State T} :
      SingleProducerConsumer.step s.threads e = some threads →
        Effect s (.thread e) { s with threads := threads }
  | size :
      s.observer = .idle →
        Effect s .size
          { s with observer := .compare s.threads.queue.mInputIndex }
  | direct {input : ℕ} :
      s.observer = .compare input →
        s.threads.queue.mOutputIndex ≤ input →
          Effect s .observer (s.returns (input - s.threads.queue.mOutputIndex))
  | wrap {input : ℕ} :
      s.observer = .compare input →
        input < s.threads.queue.mOutputIndex →
          Effect s .observer { s with observer := .wrapped input }
  | again {input : ℕ} :
      s.observer = .wrapped input →
        Effect s .observer
          (s.returns
            (s.threads.queue.mQueueMaxSize - s.threads.queue.mOutputIndex +
              input))

theorem effect_of_observerStep {s s' : State T}
    (hstep : observerStep s = some s') : Effect s .observer s' := by
  unfold observerStep at hstep
  cases hpoint : s.observer with
  | idle => simp [hpoint] at hstep
  | compare input =>
      simp only [hpoint] at hstep
      split at hstep
      · next hge =>
          obtain rfl := Option.some.inj hstep
          exact .direct hpoint hge
      · next hlt =>
          obtain rfl := Option.some.inj hstep
          exact .wrap hpoint (Nat.lt_of_not_ge hlt)
  | wrapped input =>
      simp only [hpoint] at hstep
      obtain rfl := Option.some.inj hstep
      exact .again hpoint

theorem effect_of_step {s s' : State T} {e : Event T}
    (hstep : step s e = some s') : Effect s e s' := by
  cases e with
  | thread e =>
      obtain ⟨threads, hthreads, rfl⟩ := Option.map_eq_some_iff.mp hstep
      exact .thread hthreads
  | size =>
      unfold step at hstep
      cases hpoint : s.observer with
      | idle =>
          simp only [hpoint] at hstep
          obtain rfl := Option.some.inj hstep
          exact .size hpoint
      | _ => simp [hpoint] at hstep
  | observer => exact effect_of_observerStep hstep

theorem inv_constructed {n : ℕ} {s : State T} (h : Constructed n s) :
    Inv n s := by
  obtain ⟨hpos, garbage, rfl⟩ := h
  refine ⟨SingleProducerConsumer.inv_constructed ⟨hpos, garbage, rfl⟩, ?_⟩
  intro input hinput
  cases hinput

theorem inRange_constructed {n : ℕ} {s : State T} (h : Constructed n s) :
    InRange n s := by
  obtain ⟨hpos, garbage, rfl⟩ := h
  intro size hsize
  cases hsize

theorem Inv.step {n : ℕ} {s s' : State T} {e : Event T} (h : Inv n s)
    (hstep : step s e = some s') : Inv n s' := by
  cases effect_of_step hstep with
  | thread hthreads => exact ⟨h.threads.step hthreads, h.input_lt⟩
  | size =>
      refine ⟨h.threads, ?_⟩
      intro input hinput
      obtain rfl := Option.some.inj hinput
      exact h.inputIndex_lt
  | direct => exact ⟨h.threads, fun input hinput => by cases hinput⟩
  | wrap hpoint =>
      refine ⟨h.threads, ?_⟩
      intro input hinput
      apply h.input_lt input
      rw [hpoint]
      exact hinput
  | again => exact ⟨h.threads, fun input hinput => by cases hinput⟩

/-! ## The values returned -/

theorem inRange_returns {n : ℕ} {s : State T} (h : InRange n s) (size : ℤ) :
    InRange n (s.returns size) ↔ PossibleLength n size := by
  constructor
  · intro hreturns
    apply hreturns
    exact List.mem_append_right _ (List.mem_singleton_self size)
  · intro hsize x hx
    obtain hx | hx := List.mem_append.mp hx
    · exact h x hx
    · exact List.mem_singleton.mp hx ▸ hsize

/-- Without a wrap the difference is a possible length. -/
theorem possibleLength_sub {n input output : ℕ} (hinput : input < n)
    (hle : output ≤ input) : PossibleLength n (input - output) := by
  constructor <;> omega

/-- Around the end of the buffer the result is a possible length exactly when it
is computed with an output index ahead of the input index. -/
theorem possibleLength_wrapped_iff {n input output : ℕ} (houtput : output < n) :
    PossibleLength n (n - output + input) ↔ input < output := by
  unfold PossibleLength
  omega

theorem Inv.inRange_step {n : ℕ} {s s' : State T} {e : Event T} (h : Inv n s)
    (hs : InRange n s) (hstep : ConcurrentSize.step s e = some s') :
    InRange n s' ↔ Ahead s e := by
  cases effect_of_step hstep with
  | thread => exact iff_of_true hs trivial
  | size => exact iff_of_true hs trivial
  | direct hpoint hle =>
      have hinput := h.input_lt _ (congrArg Observer.input hpoint)
      rw [inRange_returns hs, Ahead, hpoint]
      exact iff_of_true (possibleLength_sub hinput hle) trivial
  | wrap hpoint =>
      rw [Ahead, hpoint]
      exact iff_of_true hs trivial
  | again hpoint =>
      rw [inRange_returns hs, h.threads.size, Ahead, hpoint]
      exact possibleLength_wrapped_iff h.outputIndex_lt

/-- However the three threads interleave, all values that `size` returns are
possible lengths exactly when every load for a result around the end of the
buffer still finds the output index ahead of the input index loaded first. -/
theorem inRange_iff_ahead {n : ℕ} {s : State T} (hs : Constructed n s)
    (es : List (Event T)) :
    Throughout step (InRange n) s es ↔ Every step Ahead s es :=
  throughout_iff_every (fun _ _ _ hinv hstep => hinv.step hstep)
    (fun _ _ _ hinv hrange hstep => hinv.inRange_step hrange hstep)
    (inv_constructed hs) (inRange_constructed hs) es

/-- The accesses of two pushes and a pop between them. -/
def pushedTwice : List (SingleProducerConsumer.Event ℕ) :=
  [.push 7, .producer, .producer, .producer,
    .pop, .consumer, .consumer, .consumer,
    .push 8, .producer, .producer, .producer]

/-- The value 7 has gone through a queue of two cells, 8 waits in its last cell,
and `size` has seen the input index before the output index. -/
def aroundTheEnd : List (Event ℕ) :=
  pushedTwice.map Event.thread ++ [.size, .observer]

theorem inRange_aroundTheEnd :
    Throughout step (InRange 2) (constructed 2 Nat.two_pos fun _ => 0)
      (aroundTheEnd ++ [.observer]) := by
  have hruns : (runWhile step Ahead (constructed 2 Nat.two_pos fun _ => 0)
      (aroundTheEnd ++ [.observer])).isSome := by
    decide +kernel
  obtain ⟨s, hrun⟩ := Option.isSome_iff_exists.mp hruns
  exact (inRange_iff_ahead ⟨Nat.two_pos, _, rfl⟩ _).mpr
    (every_of_runWhile hrun)

/-- The consumer takes 8 in front of the last load of `size`. -/
def takenMeanwhile : List (Event ℕ) :=
  aroundTheEnd ++ [.thread .pop, .thread .consumer, .thread .consumer,
    .thread .consumer, .observer]

/-- `size` returns 2 for a queue that holds at most one element. -/
theorem not_inRange_of_takenMeanwhile :
    ¬ ∀ (n : ℕ) (s : State ℕ) (es : List (Event ℕ)),
      2 ≤ n → Constructed n s → Throughout step (InRange n) s es := by
  intro hall
  have hruns : (run step (constructed 2 Nat.two_pos fun _ => 0)
      takenMeanwhile).map (·.sizes) = some [2] := by
    decide +kernel
  obtain ⟨s, hrun, hsizes⟩ := Option.map_eq_some_iff.mp hruns
  have hrange := (hall 2 _ takenMeanwhile le_rfl ⟨_, _, rfl⟩).last hrun
  have hsize : PossibleLength 2 2 := by
    apply hrange
    rw [hsizes]
    exact List.mem_singleton_self 2
  exact absurd hsize.2 (by decide)

/-! ## Calls that no pop overtakes -/

/-- A call that no other thread interrupts returns the number of waiting
elements. -/
theorem run_size {s : State T} (hidle : s.observer = .idle) :
    ∃ loads, (∀ e ∈ loads, e = Event.observer) ∧
      run step s (.size :: loads) =
        some (s.returns s.threads.queue.contents.length) := by
  obtain ⟨threads, observer, sizes⟩ := s
  obtain rfl : observer = .idle := hidle
  rw [← LockFreeCircleQueue.size_eq, LockFreeCircleQueue.size]
  by_cases hle : threads.queue.mOutputIndex ≤ threads.queue.mInputIndex
  · refine ⟨[.observer], fun e he => List.mem_singleton.mp he, ?_⟩
    rw [if_pos hle, Nat.cast_sub hle]
    simp [step, observerStep, hle, State.returns]
  · refine ⟨[.observer, .observer], fun e he => by simpa using he, ?_⟩
    rw [if_neg hle, Nat.cast_add,
      Nat.cast_sub threads.queue.outputIndex_lt.le]
    simp [step, observerStep, hle, State.returns]

/-- No pop stores an index past the end of the buffer in front of the load for
the result. -/
def Steady (s : State T) : Event T → Prop
  | .thread .consumer =>
      ∀ input current data, s.observer = .wrapped input →
        s.threads.consumer = .store current data →
          current + 1 ≠ s.threads.queue.mQueueMaxSize
  | _ => True

/-- Until a pop passes the end of the buffer, the output index stays ahead. -/
theorem Inv.behind_step {n : ℕ} {s s' : State T} {e : Event T} (h : Inv n s)
    (hbehind : s.observer.Behind s.threads.queue.mOutputIndex)
    (hsteady : Steady s e) (hstep : ConcurrentSize.step s e = some s') :
    s'.observer.Behind s'.threads.queue.mOutputIndex := by
  cases effect_of_step hstep with
  | size => trivial
  | direct => trivial
  | wrap hpoint hlt => exact hlt
  | again => trivial
  | thread hthreads =>
      cases hpoint : s.observer with
      | idle => trivial
      | compare input => trivial
      | wrapped input =>
          rw [hpoint] at hbehind
          have hlt : input < s.threads.queue.mOutputIndex := hbehind
          obtain hsame | ⟨rfl, current, data, hstore, hnext⟩ :=
            SingleProducerConsumer.outputIndex_of_step hthreads
          · rw [hsame]
            exact hlt
          · have hcurrent : current = s.threads.queue.mOutputIndex := by
              have hok := h.threads.consumer
              rw [hstore] at hok
              exact hok.1
            have hne := hsteady input current data hpoint hstore
            have hcases := s.threads.queue.nextIndex_cases
              s.threads.queue.outputIndex_lt
            rw [hnext, hcurrent]
            change input < _
            omega

/-- While no pop passes the end of the buffer in front of the load for the
result, every value that `size` returns is a possible length. -/
theorem inRange_of_steady {n : ℕ} {s : State T} (hs : Constructed n s)
    {es : List (Event T)} (hsteady : Every step Steady s es) :
    Throughout step (InRange n) s es := by
  have hkept : Throughout step
      (fun s => Inv n s ∧ InRange n s ∧
        s.observer.Behind s.threads.queue.mOutputIndex) s es := by
    refine throughout_of_every ?_
      ⟨inv_constructed hs, inRange_constructed hs, ?_⟩ hsteady
    · rintro s e s' ⟨hinv, hrange, hbehind⟩ hg hstep
      have hahead : Ahead s e := by
        cases e with
        | observer => exact hbehind
        | _ => trivial
      exact ⟨hinv.step hstep, (hinv.inRange_step hrange hstep).mpr hahead,
        hinv.behind_step hbehind hg hstep⟩
    · obtain ⟨hpos, garbage, rfl⟩ := hs
      trivial
  exact hkept.mono fun s h => h.2.1

end RankingServer.Utility.ConcurrentSize
