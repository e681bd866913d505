import RankingServer.Business.DataStructure

/-!
# The Redis cache

The commands that `DatabaseWorker` sends to Redis, the replies it looks at, and
what the two functions that wrap a single command make of them.  Expiry is a
matter of the modules that run the cache.
-/

namespace RankingServer.Business

/-- The bytes up to the first NUL, which is what a `char*` conveys. -/
def cString (bytes : List UInt8) : List UInt8 := bytes.takeWhile (· ≠ 0)

def cacheKey (table key : List UInt8) : List UInt8 :=
  ascii "table:" ++ table ++ ascii ":" ++ key

/-- A `SET` command of `SetCachedData`, with its arguments as Redis gets
them. -/
structure SetCommand where
  key : List UInt8
  value : List UInt8
  ttl : ℕ
deriving DecidableEq, Repr

/-- The command of `SetCachedData`. -/
def setCachedData (table key jsonString : List UInt8) (ttl : ℕ) : SetCommand :=
  ⟨cString (cacheKey table key), cString jsonString, ttl⟩

/-- What `GetCachedData` makes of the answer to its `GET`: the inner option is
`none` for a missing entry, the outer one where `parse` throws. -/
def getCachedData (reply : Option (List UInt8)) :
    Option (Option Json.Members) :=
  match reply with
  | none => some none
  | some text =>
      let jsonString := cString text
      -- a cached empty string is taken for a missing entry
      if jsonString = [34, 34] then some none
      else (Json.parse jsonString).map some

/-! ## Commands and replies -/

inductive Command
  | get (key : List UInt8)
  | set (command : SetCommand)
  | scan (cursor : ℤ) (pattern : List UInt8)
deriving DecidableEq, Repr

/-- Replies; that to a `SCAN` has the next cursor and some keys. -/
inductive RedisReply
  | string (str : List UInt8)
  | nil
  | status
  | array (cursor : ℕ) (keys : List (List UInt8))
deriving DecidableEq, Repr

/-- The value in a reply of type `REDIS_REPLY_STRING`. -/
def RedisReply.value : RedisReply → Option (List UInt8)
  | string str => some str
  | nil | status | array _ _ => none

/-- The entries that Redis holds. -/
abbrev Store := List UInt8 → Option (List UInt8)

namespace Command

/-- The reply of Redis; which keys a `SCAN` returns is up to Redis. -/
def answer (store : Store) (cursor : ℕ) (keys : List (List UInt8)) :
    Command → RedisReply
  | get key => (store key).elim .nil .string
  | set _ => .status
  | scan _ _ => .array cursor keys

/-- The entries after the command. -/
def execute (store : Store) : Command → Store
  | set command => Function.update store command.key (some command.value)
  | get _ | scan _ _ => store

@[simp] theorem value_answer_get (store : Store) (cursor : ℕ)
    (keys : List (List UInt8)) (key : List UInt8) :
    ((get key).answer store cursor keys).value = store key := by
  cases hstore : store key <;> simp [answer, hstore, RedisReply.value]

end Command

/-- The entries after some `SET` commands. -/
def setAll (commands : List SetCommand) (store : Store) : Store :=
  commands.foldl (fun store command => (Command.set command).execute store)
    store

/-- The last command with a key decides about its entry. -/
theorem setAll_apply (commands : List SetCommand) (store : Store)
    (key : List UInt8) :
    setAll commands store key =
      ((commands.reverse.find? fun command => command.key = key).map
        SetCommand.value).or (store key) := by
  induction commands generalizing store with
  | nil => rfl
  | cons command commands ih =>
      have htail := ih ((Command.set command).execute store)
      rw [setAll, List.foldl_cons, ← setAll, htail, List.reverse_cons,
        List.find?_append, Command.execute]
      by_cases hkey : command.key = key
      · subst hkey
        rw [Function.update_self]
        cases commands.reverse.find? fun c => c.key = command.key <;> simp
      · rw [Function.update_of_ne (Ne.symm hkey)]
        simp [hkey]

/-- `GetCachedData`, with the entries that Redis holds. -/
def Store.getCachedData (store : Store) (table key : List UInt8) :
    Option (Option Json.Members) :=
  Business.getCachedData (store (cString (cacheKey table key)))

/-- `std::stoi` of the decimal digits of a cursor, which throws for a number
that is no `int`. -/
def stoi (cursor : ℕ) : Option ℤ :=
  if cursor < 2 ^ 31 then some cursor else none

end RankingServer.Business
