import Mozkey.Lib.LruMap

/-!
# Undoing changes from a list of old values

While a map changes, old values are written down together with their keys.  To undo
the changes the old values are written back in the order of the list, each one
only where its key is still in the map.  What a key has in the end is the last
value that was written down for it.
-/

namespace Mozkey.Lib

variable {κ α : Type*} [DecidableEq κ]

/-- The last value written down for a key. -/
def lastRecord (records : List (κ × α)) (key : κ) : Option α := records.reverse.lookup key

theorem lastRecord_append_singleton (records : List (κ × α)) (record : κ × α) (key : κ) :
    lastRecord (records ++ [record]) key
      = if key = record.1 then some record.2 else lastRecord records key := by
  rw [lastRecord, List.reverse_append, List.reverse_singleton, List.singleton_append,
    List.lookup_cons]
  by_cases same : key = record.1
  · rw [if_pos same, beq_iff_eq.2 same]
  · rw [if_neg same, beq_false_of_ne same]
    rfl

/-- Writing one old value back. -/
def restoreOne (values : κ → Option α) (record : κ × α) : κ → Option α := fun key =>
  if key = record.1 then (values key).map fun _ => record.2 else values key

/-- Writing the old values back in order. -/
def restore (values : κ → Option α) (records : List (κ × α)) : κ → Option α :=
  records.foldl restoreOne values

/-- **The last record wins.** -/
theorem restore_apply (values : κ → Option α) (records : List (κ × α)) (key : κ) :
    restore values records key = (values key).map (lastRecord records key).getD := by
  induction records using List.reverseRecOn with
  | nil =>
      rw [restore, List.foldl_nil]
      cases values key <;> rfl
  | append_singleton records record ih =>
      rw [restore, List.foldl_append, List.foldl_cons, List.foldl_nil,
        lastRecord_append_singleton, restoreOne]
      rw [restore] at ih
      by_cases same : key = record.1
      · rw [if_pos same, if_pos same, ih, Option.map_map]
        rfl
      · rw [if_neg same, if_neg same, ih]

end Mozkey.Lib
