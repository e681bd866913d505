import RankingServer.Network.Conservation

/-!
# What the objects contain

`Clear` wipes the body of an object only as far as its recorded length.  In
every state of a run that is enough: no object has anything behind that length,
so that a receive is posted on an object whose buffers are all zero.
-/

namespace RankingServer.Network

open CustomOverlapped Transition

variable {α : Type*} {n : ℕ} {c : Config} {handler : Handler α}
  {s s' : State n} {e : Event α n}

/-- The contents of the objects in every state of a run. -/
structure Buffers (s : State n) : Prop where
  clean : ∀ p, (s.heap p).CleanTail
  bodyLen : ∀ op, InUse s.posted s.workers op → op.call ≠ .wsaSend →
    (s.heap op.overlapped).bodyLen = BUFFER_SIZE
  blank : ∀ op, InUse s.posted s.workers op → op.call = .wsaRecv →
    op.completion = none → (s.heap op.overlapped).Blank

theorem Call.cleanTail_prepare (call : Call) {o : CustomOverlapped}
    (h : o.CleanTail) : (call.prepare o).CleanTail := by
  cases call with
  | receiveReady => exact Client.cleanTail_receiveReady h
  | send => exact Client.cleanTail_send _ _ _ h

theorem Buffers.clean_step (hb : Buffers s) (h : Step c handler s e s') :
    ∀ p, (s'.heap p).CleanTail := by
  have hupdate {p : Pointer} {o : CustomOverlapped} (ho : o.CleanTail) :
      ∀ q, (Function.update s.heap p o q).CleanTail :=
    (Function.forall_update_iff s.heap fun _ o => o.CleanTail).mpr
      ⟨ho, fun q _ => hb.clean q⟩
  cases h with
  | acceptPost | acceptRefused =>
      exact hupdate (Client.cleanTail_acceptReady _ _)
  | post | refused => exact hupdate (Call.cleanTail_prepare _ (hb.clean _))
  | recycle => exact hupdate (hb.clean _).blank_clear.cleanTail
  | acceptDone hget =>
      exact hupdate (cleanTail_of_bodyLen
        (hb.bodyLen _ (inUse_of_getElem? hget) (by simp)))
  | recvDone hget =>
      exact hupdate (cleanTail_of_bodyLen
        (hb.bodyLen _ (inUse_of_getElem? hget) (by simp)))
  | _ => exact hb.clean

theorem Buffers.step (hb : Buffers s) (hs : Sound c s)
    (h : Step c handler s e s') : Buffers s' where
  clean := hb.clean_step h
  bodyLen := fun op hop hcall => by
    cases hs.origin h hop with
    | kept hop hheap => exact hheap ▸ hb.bodyLen op hop hcall
    | accepting hmain hop hheap =>
        subst hop
        rw [hheap]
        rfl
    | @posted _ _ _ call _ hpopped hop hheap =>
        subst hop
        rw [hheap]
        cases call with
        | receiveReady => rfl
        | send => exact absurd rfl hcall
    | accepted hold hop hheap =>
        subst hop
        rw [hheap]
        exact hb.bodyLen _ hold (by simp)
    | received he hold hop hheap =>
        subst hop
        rw [hheap]
        exact hb.bodyLen _ hold (by simp)
    | @finished op₀ _ hold hop hfinished hheap =>
        subst hop
        rw [hheap]
        exact hb.bodyLen op₀ hold hcall
  blank := fun op hop hcall hpending => by
    cases hs.origin h hop with
    | kept hop hheap => exact hheap ▸ hb.blank op hop hcall hpending
    | accepting hmain hop => 
        subst hop
        cases hcall
    | @posted _ _ _ call _ hpopped hop hheap =>
        subst hop
        rw [hheap]
        cases call with
        | receiveReady => exact Client.blank_receiveReady (hb.clean _)
        | send => cases hcall
    | accepted hold hop =>
        subst hop
        cases hcall
    | received he hold hop =>
        subst hop
        cases hpending
    | finished hold hop hfinished hheap =>
        subst hop
        rcases hfinished with ⟨-, b, hdone⟩ | ⟨hfailed, -⟩
        · rw [hdone] at hpending
          cases hpending
        · rw [hfailed] at hpending
          cases hpending

theorem buffers_initialized (n : ℕ) (c : Config)
    (hg bg : Pointer → List UInt8) : Buffers (initialized n c hg bg) where
  clean := fun p => cleanTail_construct _ _
  bodyLen := fun op hop _ => by
    rcases hop with hmem | ⟨w, b, hw⟩
    · cases hmem
    · cases hw
  blank := fun op hop _ _ => by
    rcases hop with hmem | ⟨w, b, hw⟩
    · cases hmem
    · cases hw

/-- A run starts when `NetworkManager::Initialize` returns. -/
def Started (c : Config) (s : State n) : Prop :=
  ∃ hg bg, s = initialized n c hg bg

/-- Every state of a run is sound and has its buffers in order. -/
theorem sound_of_reachable {guard : State n → Event α n → Prop}
    (hs : Reachable (State.step c handler) (Started c) guard s) :
    Sound c s ∧ Buffers s := by
  have hinit (s : State n) (hstart : Started c s) : Sound c s ∧ Buffers s := by
    obtain ⟨hg, bg, rfl⟩ := hstart
    exact ⟨sound_initialized n c hg bg, buffers_initialized n c hg bg⟩
  have hstep (s : State n) (e : Event α n) (s' : State n)
      (hinv : Sound c s ∧ Buffers s) (_ : guard s e)
      (hstep : State.step c handler s e = some s') :
      Sound c s' ∧ Buffers s' := by
    have h := (State.step_cases hstep).2
    exact ⟨hinv.1.step h, hinv.2.step hinv.1 h⟩
  exact hs.invariant hinit hstep

end RankingServer.Network
