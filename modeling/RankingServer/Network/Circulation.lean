import RankingServer.Network.Buffers

/-!
# Pushes onto the pool

`mOverlappedQueue` is pushed onto in two places: by the loop of
`NetworkManager::Initialize` that fills it, and by `Session::Process`, which
puts the object of each completion back.  Neither looks at what `push` returns.
-/

namespace RankingServer.Network

open Transition

variable {α : Type*} {n : ℕ} {c : Config} {handler : Handler α} {s : State n}

/-- Every push is accepted, so that all objects that are allocated enter
circulation and remain in it. -/
structure NoPushRejected (handler : Handler α) (n : ℕ) (c : Config) :
    Prop where
  filled : ∀ accepted ∈ fillResults c.poolSize c.poolSize_pos, accepted = true
  circulating : (overlappedQueue c.poolSize c.poolSize_pos).contents =
    (List.range c.poolSize).map some
  recycled : ∀ s : State n,
    Reachable (State.step c handler) (Started c) unguarded s →
      ∀ w overlapped, s.workers w = .recycling overlapped →
        (s.mOverlappedQueue.push (some overlapped)).2 = true

/-- Objects that are put back find room. -/
theorem accepted_of_recycling
    (hs : Reachable (State.step c handler) (Started c) unguarded s)
    {w : Fin n} {overlapped : Pointer}
    (hrecycling : s.workers w = .recycling overlapped) :
    (s.mOverlappedQueue.push (some overlapped)).2 = true :=
  (s.mOverlappedQueue.push_of_room (some overlapped)
    ((sound_of_reachable hs).1.room hrecycling)).1

/-- One object is refused when the pool is filled. -/
theorem not_filled (c : Config) :
    ¬ ∀ accepted ∈ fillResults c.poolSize c.poolSize_pos, accepted = true := by
  rw [fillResults_eq]
  intro hall
  have hlast := hall false (by simp)
  cases hlast

/-- For no size of the pool are all pushes accepted: the last of the loop is
refused.  No other ever is. -/
theorem last_push_rejected (handler : Handler α) (n : ℕ) (c : Config) :
    ¬ NoPushRejected handler n c ∧
      fillResults c.poolSize c.poolSize_pos =
        List.replicate (c.poolSize - 1) true ++ [false] ∧
      ∀ s : State n,
        Reachable (State.step c handler) (Started c) unguarded s →
          ∀ w overlapped, s.workers w = .recycling overlapped →
            (s.mOverlappedQueue.push (some overlapped)).2 = true := by
  refine ⟨fun h => not_filled c h.filled, fillResults_eq _ _, ?_⟩
  intro s hs w overlapped hrecycling
  exact accepted_of_recycling hs hrecycling

/-- The last of the 200 objects is lost before the server starts. -/
theorem not_noPushRejected_main :
    ¬ ∀ c : Config,
      NoPushRejected ((fun _ _ _ => .returns) : Handler Unit) 2 c := by
  intro hall
  exact not_filled mainConfig (hall mainConfig).filled

end RankingServer.Network
