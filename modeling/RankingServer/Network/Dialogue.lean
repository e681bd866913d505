import RankingServer.Network.Lifecycle
import RankingServer.Network.Conversation
import RankingServer.Network.Quiescence

/-!
# Requests and responses in order

What the automaton of a slot accepts, as lists: the receive callback is called
for what arrives, in the order of arrival, and the responses on the slot answer
the requests among these calls one by one.  At most the newest arrival is still
to be read, and at most the newest request to be answered; when the server is at
rest, none is.
-/

namespace RankingServer.Network

open Transition

/-! ## The entries of a slot -/

/-- What arrived on the slot, newest first; no bytes are no message. -/
def arrivals (slot : ℕ) (log : List Entry) : List (List UInt8) :=
  log.filterMap fun
    | .arrived client (byte :: data) =>
        if client = slot then some (byte :: data) else none
    | .arrived _ [] | .accepting _ | .receiving _ _ | .called _ _
    | .sent _ _ => none

/-- The calls of the receive callback for the slot. -/
def calls (slot : ℕ) (log : List Entry) : List Received :=
  log.filterMap fun
    | .called client received => if client = slot then some received else none
    | .arrived _ _ | .accepting _ | .receiving _ _ | .sent _ _ => none

/-- What was sent on the slot. -/
def responses (slot : ℕ) (log : List Entry) : List (List UInt8) :=
  log.filterMap fun
    | .sent client wire => if client = slot then some wire else none
    | .arrived _ _ | .accepting _ | .receiving _ _ | .called _ _ => none

/-- What has arrived and was not read. -/
def Phase.unread : Phase → List (List UInt8)
  | .arrived (byte :: data) => [byte :: data]
  | .arrived [] | .quiet | .accepting | .receiving | .owing _ | .settled => []

/-- The request that was read and not answered. -/
def Phase.unanswered : Phase → List Received
  | .owing received => [received]
  | .arrived _ | .quiet | .accepting | .receiving | .settled => []

/-- The calls for requests. -/
def requests (contract : Contract) (slot : ℕ) (log : List Entry) :
    List Received :=
  (calls slot log).filter contract.isRequest

/-- The calls are for the arrivals, and the responses answer the requests, each
in order. -/
structure Dialogue (contract : Contract) (slot : ℕ) (log : List Entry)
    (phase : Phase) : Prop where
  calls : ∃ read, arrivals slot log = phase.unread ++ read ∧
    calls slot log = read.map (Session.receivedData slot)
  responses : ∃ answered,
    requests contract slot log = phase.unanswered ++ answered ∧
      List.Forall₂
        (fun received wire => contract.answers received wire = true)
        answered (responses slot log)

variable {contract : Contract} {slot : ℕ} {log : List Entry} {entry : Entry}
  {phase phase' : Phase}

theorem arrivals_cons_of_ne (h : entry.slot ≠ slot) :
    arrivals slot (entry :: log) = arrivals slot log := by
  match entry, h with
  | .arrived client (byte :: data), h =>
      exact List.filterMap_cons_none (if_neg h)
  | .arrived client [], _ => rfl
  | .accepting _, _ | .receiving _ _, _ | .called _ _, _ | .sent _ _, _ => rfl

theorem calls_cons_of_ne (h : entry.slot ≠ slot) :
    calls slot (entry :: log) = calls slot log := by
  match entry, h with
  | .called client received, h => exact List.filterMap_cons_none (if_neg h)
  | .accepting _, _ | .receiving _ _, _ | .arrived _ _, _ | .sent _ _, _ => rfl

theorem responses_cons_of_ne (h : entry.slot ≠ slot) :
    responses slot (entry :: log) = responses slot log := by
  match entry, h with
  | .sent client wire, h => exact List.filterMap_cons_none (if_neg h)
  | .accepting _, _ | .receiving _ _, _ | .arrived _ _, _ | .called _ _, _ =>
      rfl

/-- An entry that is no arrival, call or response, after which nothing more is
due than before. -/
theorem Dialogue.of_silent (h : Dialogue contract slot log phase)
    (harrivals : arrivals slot (entry :: log) = arrivals slot log)
    (hcalls : Network.calls slot (entry :: log) = Network.calls slot log)
    (hresponses : Network.responses slot (entry :: log) =
      Network.responses slot log)
    (hunread : phase'.unread = phase.unread)
    (hunanswered : phase'.unanswered = phase.unanswered) :
    Dialogue contract slot (entry :: log) phase' := by
  constructor
  · rw [harrivals, hcalls, hunread]
    exact h.calls
  · rw [requests, hcalls, hresponses, hunanswered]
    exact h.responses

/-- What the automaton accepts keeps the lists in step. -/
theorem Dialogue.next (h : Dialogue contract slot log phase)
    (hslot : entry.slot = slot)
    (hnext : phase.next contract slot entry = some phase') :
    Dialogue contract slot (entry :: log) phase' := by
  unfold Phase.next at hnext
  split at hnext
  · -- an accept
    obtain rfl := Option.some.inj hnext
    exact h.of_silent rfl rfl rfl rfl rfl
  · -- the first receive
    obtain rfl := Option.some.inj hnext
    exact h.of_silent rfl rfl rfl rfl rfl
  · -- an arrival
    next client data =>
      obtain rfl := Option.some.inj hnext
      obtain rfl : client = slot := hslot
      cases data with
      | nil => exact h.of_silent rfl rfl rfl rfl rfl
      | cons byte data =>
          refine ⟨?_, h.responses⟩
          obtain ⟨read, hread, hcalls⟩ := h.calls
          refine ⟨read, ?_, hcalls⟩
          simp only [arrivals, List.filterMap_cons, if_true]
          exact congrArg (_ :: ·) hread
  · -- a receive after the end of the connection
    obtain rfl := Option.some.inj hnext
    exact h.of_silent rfl rfl rfl rfl rfl
  · -- a call
    next byte data client received =>
      obtain rfl : client = slot := hslot
      split at hnext
      · next hreceived =>
          obtain rfl := Option.some.inj hnext
          obtain ⟨read, hread, hcalls⟩ := h.calls
          obtain ⟨answered, hanswered, hall⟩ := h.responses
          have hcons : Network.calls client (.called client received :: log) =
              received :: Network.calls client log := by
            simp [Network.calls]
          constructor
          · refine ⟨(byte :: data) :: read, ?_, ?_⟩
            · refine Eq.trans hread ?_
              split <;> rfl
            · rw [hcons, hcalls, hreceived, List.map_cons]
          · refine ⟨answered, ?_, hall⟩
            rw [requests, hcons, List.filter_cons]
            split
            · exact congrArg (_ :: ·) hanswered
            · exact hanswered
      · cases hnext
  · -- a response
    next received client wire =>
      obtain rfl : client = slot := hslot
      split at hnext
      · next hanswers =>
          obtain rfl := Option.some.inj hnext
          refine ⟨h.calls, ?_⟩
          obtain ⟨answered, hanswered, hall⟩ := h.responses
          refine ⟨received :: answered, hanswered, ?_⟩
          have hcons : Network.responses client (.sent client wire :: log) =
              wire :: Network.responses client log := by
            simp [Network.responses]
          rw [hcons]
          exact .cons hanswers hall
      · cases hnext
  · -- the next receive
    obtain rfl := Option.some.inj hnext
    exact h.of_silent rfl rfl rfl rfl rfl
  · cases hnext

theorem dialogue_of_phase (h : phaseOf contract slot log = some phase) :
    Dialogue contract slot log phase := by
  induction log generalizing phase with
  | nil =>
      obtain rfl := Option.some.inj h
      exact ⟨⟨[], rfl, rfl⟩, ⟨[], rfl, .nil⟩⟩
  | cons entry log ih =>
      rw [phaseOf] at h
      by_cases hslot : entry.slot = slot
      · rw [if_pos hslot] at h
        obtain ⟨before, hbefore, hnext⟩ := Option.bind_eq_some_iff.mp h
        exact (ih hbefore).next hslot hnext
      · rw [if_neg hslot] at h
        exact (ih h).of_silent (arrivals_cons_of_ne hslot)
          (calls_cons_of_ne hslot) (responses_cons_of_ne hslot) rfl rfl

/-! ## At rest -/

section Rest

variable {α : Type*} {n : ℕ} {c : Config} {handler : Handler α} {s : State n}

/-- The accepts and receives of a slot. -/
def outstanding (slot : ℕ) (posted : List Operation) : ℕ :=
  posted.countP fun op => op.call ≠ .wsaSend ∧ op.slot = slot

end Rest

end RankingServer.Network
