import RankingServer.Business.Contents

/-!
# Requests of one player and the data of another

A request carries a player id as a byte string with its length.  The key of the
cache and the parameter of the `MERGE` statement are C strings, so that players
whose ids agree up to a NUL share an entry and a row.
-/

namespace RankingServer.Business

variable {Date : Type*} {clock : Clock Date}

/-- What is cached and stored for `q` is the same in two runs of which only the
second has had `store'` in Redis.  A save merges the entry of `q` itself too, so
the rows are compared after a save in either run. -/
structure SameFor (clock : Clock Date) (q : List UInt8)
    (store store' : Store) : Prop where
  score : store'.getCachedData (ascii "Score") q =
    store.getCachedData (ascii "Score") q
  ranking : store'.getCachedData (ascii "Ranking") q =
    store.getCachedData (ascii "Ranking") q
  row : ∀ (table : ScoreTable Date)
    (replies replies' : List (ℕ × List (List UInt8))),
    Scan store replies → Scan store' replies' →
      ∃ saved saved', scoreDataSave clock store replies table = some saved ∧
        scoreDataSave clock store' replies' table = some saved' ∧
        saved'.lookup (cString q) = saved.lookup (cString q)

/-- Whatever is in Redis, a save request of `p` that is answered makes no
difference to `q`. -/
def Isolated (clock : Clock Date) (p q : List UInt8) : Prop :=
  ∀ (store : Store) (cached : Option (List UInt8)) (socketId : ℕ)
    (score lastUpdate : ℤ) (stored : List SetCommand)
    (client contentsType : ℕ) (body : List UInt8),
    Written store →
      Hub.handle cached socketId (.saveScore p score lastUpdate) =
          .responded stored client contentsType body →
        SameFor clock q store (setAll stored store)

theorem entryRow_congr {store store' : Store} {playerId : List UInt8}
    (h : store' (scoreKey playerId) = store (scoreKey playerId)) :
    entryRow clock store' playerId = entryRow clock store playerId := by
  rw [entryRow, entryRow, cachedScore, cachedScore, h]

/-- The data of a player depend on two entries of Redis. -/
theorem sameFor_of_eq {store store' : Store} {q : List UInt8}
    (hstore : ReadableScores store) (hstore' : ReadableScores store')
    (hscore : store' (scoreKey (cString q)) = store (scoreKey (cString q)))
    (hranking : store' (cString (rankingKey q)) =
      store (cString (rankingKey q))) : SameFor clock q store store' where
  score := by
    rw [← cString_scoreKey] at hscore
    exact congrArg getCachedData hscore
  ranking := congrArg getCachedData hranking
  row := by
    intro table replies replies' hscan hscan'
    obtain ⟨saved, hsave, hlookup⟩ :=
      scoreDataSave_lookup clock hstore hscan table
    obtain ⟨saved', hsave', hlookup'⟩ :=
      scoreDataSave_lookup clock hstore' hscan' table
    refine ⟨saved, saved', hsave, hsave', ?_⟩
    rw [hlookup, hlookup', entryRow_congr hscore]

/-- Players with different C strings are isolated, and so are all players from
one whose id cannot be stored. -/
theorem isolated_of_ne {p q : List UInt8}
    (hne : Json.wellFormed p = true → cString p ≠ cString q) :
    Isolated clock p q := by
  intro store cached socketId score lastUpdate stored client contentsType body
    hwritten hhandle
  have hreadable := hwritten.readable.score
  have hreadable' := (hwritten.handled hhandle).readable.score
  rcases Hub.stored_of_handle hhandle with rfl | ⟨_, _, _, text, hp, htext, rfl⟩
  · exact sameFor_of_eq hreadable hreadable' rfl rfl
  · cases hp
    have hwellFormed := (Data_Score.dump_toJson_isSome_iff p score _).mp
      (Option.isSome_of_eq_some htext)
    have hkey : scoreKey (cString q) ≠ scoreKey (cString p) := fun h =>
      hne hwellFormed (scoreKey_injective h).symm
    refine sameFor_of_eq hreadable hreadable' ?_ ?_
    · rw [setAll_setCachedData htext, Function.update_of_ne hkey]
    · rw [setAll_setCachedData htext,
        Function.update_of_ne (scoreKey_ne_rankingKey _ _).symm]

/-- The first request of `p` also gives `q` an entry when the two ids are the
same C string. -/
theorem not_isolated_of_eq {p q : List UInt8}
    (hwellFormed : Json.wellFormed p = true)
    (hsame : cString p = cString q) : ¬ Isolated clock p q := by
  intro hisolated
  obtain ⟨text, htext⟩ :=
    Data_Score.exists_dump_toJson hwellFormed 0 (Hub.koreaTime 0)
  have hhandle := Hub.handle_saveScore htext none 1
  have hscore := (hisolated _ none 1 0 0 _ _ _ _ .empty hhandle).score
  have hkey : cString (cacheKey (ascii "Score") q) = scoreKey (cString p) := by
    rw [hsame]
    exact cString_scoreKey q
  rw [setAll_setCachedData htext, Store.getCachedData, Store.getCachedData,
    hkey, Function.update_self, getCachedData_dump htext] at hscore
  cases hscore

/-- Players are isolated exactly if their ids differ as C strings or the first
one is not UTF-8, in which case nothing is stored. -/
theorem isolated_iff (clock : Clock Date) (p q : List UInt8) :
    Isolated clock p q ↔
      (Json.wellFormed p = true → cString p ≠ cString q) := by
  constructor
  · intro hisolated hwellFormed hsame
    exact not_isolated_of_eq hwellFormed hsame hisolated
  · exact isolated_of_ne

/-- An id with a NUL takes the entry of the player whose id ends there. -/
theorem not_isolated_nul :
    ¬ ∀ p q : List UInt8, p ≠ q → Isolated utcClock p q := by
  intro hall
  have hisolated := hall [65, 0, 66] [65] (by decide)
  exact not_isolated_of_eq (by decide) (by decide) hisolated

end RankingServer.Business
