import Mathlib

/-!
# Tables with a key

A table is a list of rows no two of which have the same key.  Inserting a row
replaces the row with its key, if there is one, and otherwise appends it; what
the table holds under each key changes at the key of that row and nowhere else.
-/

variable {α κ : Type*} [DecidableEq κ]

/-- A list of rows with distinct keys. -/
structure KeyedTable {α κ : Type*} (key : α → κ) where
  rows : List α
  nodup : (rows.map key).Nodup

namespace KeyedTable

variable {key : α → κ}

/-- The table without rows. -/
def empty (key : α → κ) : KeyedTable key := ⟨[], List.nodup_nil⟩

/-- The row with a key. -/
def lookup (table : KeyedTable key) (k : κ) : Option α :=
  table.rows.find? fun row => key row = k

/-- Replace the row with the key of `row`, or append `row`. -/
def upsertRows (key : α → κ) (row : α) : List α → List α
  | [] => [row]
  | r :: rows =>
      if key r = key row then row :: rows else r :: upsertRows key row rows

theorem mem_map_upsertRows {row : α} {rows : List α} {k : κ} :
    k ∈ (upsertRows key row rows).map key ↔
      k = key row ∨ k ∈ rows.map key := by
  induction rows with
  | nil => simp [upsertRows]
  | cons r rows ih =>
      by_cases h : key r = key row
      · simp [upsertRows, h]
      · rw [upsertRows, if_neg h, List.map_cons, List.mem_cons, ih,
          List.map_cons, List.mem_cons]
        exact or_left_comm

theorem nodup_upsertRows {row : α} {rows : List α}
    (h : (rows.map key).Nodup) : ((upsertRows key row rows).map key).Nodup := by
  induction rows with
  | nil => simp [upsertRows]
  | cons r rows ih =>
      rw [List.map_cons, List.nodup_cons] at h
      by_cases hkey : key r = key row
      · rw [upsertRows, if_pos hkey, List.map_cons, List.nodup_cons, ← hkey]
        exact h
      · rw [upsertRows, if_neg hkey, List.map_cons, List.nodup_cons,
          mem_map_upsertRows, not_or]
        exact ⟨⟨hkey, h.1⟩, ih h.2⟩

def upsert (row : α) (table : KeyedTable key) : KeyedTable key where
  rows := upsertRows key row table.rows
  nodup := nodup_upsertRows table.nodup

theorem find?_upsertRows (row : α) (rows : List α) (k : κ) :
    (upsertRows key row rows).find? (fun r => key r = k) =
      if k = key row then some row else rows.find? fun r => key r = k := by
  induction rows with
  | nil =>
      by_cases h : key row = k
      · simp [upsertRows, h]
      · simp [upsertRows, h, Ne.symm h]
  | cons r rows ih =>
      by_cases hkey : key r = key row
      · by_cases h : key row = k
        · simp [upsertRows, hkey, h]
        · simp [upsertRows, hkey, h, Ne.symm h]
      · rw [upsertRows, if_neg hkey, List.find?_cons, List.find?_cons, ih]
        by_cases h : key r = k
        · have hne : k ≠ key row := h ▸ hkey
          simp [h, hne]
        · simp [h]

/-- An insertion changes the table at one key. -/
@[simp] theorem lookup_upsert (row : α) (table : KeyedTable key) :
    (table.upsert row).lookup =
      Function.update table.lookup (key row) (some row) := by
  funext k
  rw [lookup, upsert, find?_upsertRows, Function.update_apply]
  rfl

theorem upsertRows_eq_self {row : α} {rows : List α}
    (h : rows.find? (fun r => key r = key row) = some row) :
    upsertRows key row rows = rows := by
  induction rows with
  | nil => cases h
  | cons r rows ih =>
      rw [List.find?_cons] at h
      by_cases hkey : key r = key row
      · simp only [hkey, decide_true] at h
        rw [upsertRows, if_pos hkey, Option.some.inj h]
      · simp only [hkey, decide_false] at h
        rw [upsertRows, if_neg hkey, ih h]

/-- Inserting a row that the table holds does not change it. -/
theorem upsert_eq_self {row : α} {table : KeyedTable key}
    (h : table.lookup (key row) = some row) : table.upsert row = table := by
  obtain ⟨rows, nodup⟩ := table
  simp only [upsert, KeyedTable.mk.injEq]
  exact upsertRows_eq_self h

theorem key_of_lookup_eq_some {table : KeyedTable key} {k : κ} {row : α}
    (h : table.lookup k = some row) : key row = k := by
  simpa using List.find?_some h

theorem mem_rows_of_lookup {table : KeyedTable key} {k : κ} {row : α}
    (h : table.lookup k = some row) : row ∈ table.rows :=
  List.mem_of_find?_eq_some h

theorem lookup_of_mem {table : KeyedTable key} {row : α}
    (h : row ∈ table.rows) : table.lookup (key row) = some row := by
  cases hlookup : table.lookup (key row) with
  | none =>
      rw [lookup, List.find?_eq_none] at hlookup
      exact absurd (decide_eq_true rfl) (hlookup row h)
  | some r =>
      have hkey := key_of_lookup_eq_some hlookup
      have hr := mem_rows_of_lookup hlookup
      rw [List.inj_on_of_nodup_map table.nodup hr h hkey]

end KeyedTable
