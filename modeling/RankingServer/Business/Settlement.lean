import RankingServer.Business.Service
import RankingServer.Network.Dialogue

/-!
# Every request is settled

The dialogues of the server that `main` starts: its receive callback with the
messages of the protocol.  In any run in which requests can be answered,
responses answer requests one by one, and when such a run comes to rest without
a connection having ended, nothing that arrived is left unanswered.
-/

namespace RankingServer.Business

open Network Transition

namespace Hub

variable {n : ℕ} {c : Config} {s : State n}

/-- On every slot the receive callback is called for what arrives, in the order
of arrival, and what is sent answers the requests one by one; at most the newest
arrival is still to be read, or else the newest request to be answered. -/
theorem dialogue_of_answered
    (hs : Reachable (State.step c receiveCallback) (Started c) (Answered c) s)
    (slot : ℕ) : ∃ phase, Dialogue contract slot s.log phase := by
  have hordered := (serialised_of_proper
    (hs.mono fun _ _ h => h.proper)).ordered slot
  obtain ⟨phase, hphase⟩ := Option.isSome_iff_exists.mp hordered
  exact ⟨phase, dialogue_of_phase hphase⟩

theorem dialogue_of_answered_firstRequest :
    ∃ s, run (State.step mainConfig receiveCallback)
        (initialized 2 mainConfig (fun _ => []) fun _ => [])
        (firstRequest 0 Framing.rankingRequest.wire) = some s ∧
      ∃ phase, Dialogue contract 1 s.log phase := by
  have hruns : (runWhile (State.step mainConfig receiveCallback)
      (fun s e => s.mOverlappedQueue.pop.2 ≠ none ∧ Answers s e)
      (initialized 2 mainConfig (fun _ => []) fun _ => [])
      (firstRequest 0 Framing.rankingRequest.wire)).isSome := by
    decide +kernel
  obtain ⟨s, hrun⟩ := Option.isSome_iff_exists.mp hruns
  have hreached := Reachable.of_runWhile
    (.start ⟨_, _, rfl⟩ : Reachable _ (Started mainConfig) _ _) hrun
  exact ⟨s, run_of_runWhile hrun, dialogue_of_answered
    (hreached.mono fun _ _ h => ⟨fun _ => h.1, h.2⟩) 1⟩

end Hub

end RankingServer.Business
