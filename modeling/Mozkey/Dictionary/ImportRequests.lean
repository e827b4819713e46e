import Mozkey.Dictionary.UserDictionaryImporter

/-!
# No import request is lost

A request is lost if it stays in the queue although all calls of `Import` have returned and no task
is running.  The task that has found the queue empty counts as running until it has ended.  A call
that pushes its data meanwhile finds it running and schedules nothing.

`not_lost` says that this is the only way to lose a request.
-/

namespace Mozkey.Dictionary

open Mozkey.Lib

variable {Entry : Type}

namespace ImportSystem

/-- All calls have returned, no task is running, and the queue is not empty. -/
def Lost (system : ImportSystem Entry) : Prop :=
  (∀ call ∈ system.calls, call = .returned) ∧ system.task.isNone = true ∧ system.queue ≠ []

instance (system : ImportSystem Entry) : Decidable system.Lost :=
  inferInstanceAs (Decidable (_ ∧ _))

/-- The task has left its loop, and has not ended yet. -/
def isLeaving (system : ImportSystem Entry) : Bool :=
  match system.task with
  | some .leave => true
  | _ => false

/-- The last call that has not returned tests whether a task is running, while the task is leaving
and the queue is not empty. -/
def Misses (system : ImportSystem Entry) : ImportAction Entry → Prop
  | .call index =>
      system.calls[index]? = some .isRunning ∧ system.isLeaving = true ∧ system.queue ≠ [] ∧
        ∀ call ∈ system.calls.eraseIdx index, call = .returned
  | _ => False

instance (system : ImportSystem Entry) : (action : ImportAction Entry) →
    Decidable (system.Misses action)
  | .call _ => inferInstanceAs (Decidable (_ ∧ _))
  | .import_ _ => inferInstanceAs (Decidable False)
  | .task => inferInstanceAs (Decidable False)
  | .editor => inferInstanceAs (Decidable False)
  | .change _ => inferInstanceAs (Decidable False)

/-- Somebody will see to the queue: a call that has not returned, or the task. -/
def Attended (system : ImportSystem Entry) : Prop :=
  system.queue ≠ [] →
    (∃ call ∈ system.calls, call ≠ .returned) ∨ (system.task.isSome = true ∧ system.isLeaving = false)

theorem Attended.keeps {system : ImportSystem Entry} (attended : system.Attended) :
    ¬ system.Lost := by
  rintro ⟨returned, none, pending⟩
  rcases attended pending with ⟨call, member, waits⟩ | ⟨running, _⟩
  · exact waits (returned call member)
  · rw [Option.isNone_iff_eq_none.1 none] at running
    cases running

section Calls

variable {system : ImportSystem Entry} {index : Nat} {call : ImportCall}

/-- A call that makes a step to a place other than its end still attends to the queue. -/
theorem mem_moveCall (stands : system.calls[index]? = some call) (next : ImportCall) :
    next ∈ (system.moveCall index next).calls := by
  obtain ⟨inside, _⟩ := List.getElem?_eq_some_iff.1 stands
  exact List.mem_set inside next

theorem attended_moveCall (stands : system.calls[index]? = some call) {next : ImportCall}
    (waits : next ≠ .returned) : (system.moveCall index next).Attended :=
  fun _ => .inl ⟨next, mem_moveCall stands next, waits⟩

theorem attended_stepCall (attended : system.Attended) (heeds : ¬ system.Misses (.call index)) :
    (system.stepCall index).Attended := by
  rw [stepCall]
  split
  · rename_i importData stands
    exact fun _ => .inl ⟨.isRunning, mem_moveCall stands .isRunning, by simp⟩
  · rename_i stands
    split
    · exact attended
    split
    · rename_i running
      intro pending
      by_cases leaving : system.isLeaving = true
      · -- The call would be missed, unless another one has not returned.
        have others : ∃ other ∈ system.calls.eraseIdx index, other ≠ .returned := by
          by_contra none
          push Not at none
          exact heeds ⟨stands, leaving, pending, none⟩
        obtain ⟨other, member, waits⟩ := others
        refine .inl ⟨other, ?_, waits⟩
        obtain ⟨place, apart, there⟩ := List.mem_eraseIdx_iff_getElem?.1 member
        refine List.mem_of_getElem? (i := place) ?_
        change (system.calls.set index .returned)[place]? = some other
        rw [List.getElem?_set_ne apart.symm]
        exact there
      · exact .inr ⟨running, Bool.eq_false_of_not_eq_true leaving⟩
    · exact attended_moveCall stands (by simp)
  · rename_i stands
    split
    · exact attended
    · exact attended_moveCall stands (by simp)
  · split
    · exact attended
    · exact fun _ => .inr ⟨rfl, rfl⟩
  · exact attended
  · exact attended

end Calls

section Steps

variable (importText : ByteString → List Entry) (newId : UserDictionaryStorage.IdSource Entry)
variable {system : ImportSystem Entry}

theorem attended_stepTask (attended : system.Attended) :
    (system.stepTask importText newId).Attended := by
  rw [stepTask]
  split
  · exact attended
  · intro pending
    have here : system.queue ≠ [] := pending
    rw [if_neg here]
    exact .inr ⟨rfl, rfl⟩
  · exact fun _ => .inr ⟨rfl, rfl⟩
  · split
    · exact fun _ => .inr ⟨rfl, rfl⟩
    · exact fun _ => .inr ⟨rfl, rfl⟩
  · exact fun _ => .inr ⟨rfl, rfl⟩
  · split
    · exact fun _ => .inr ⟨rfl, rfl⟩
    · exact fun _ => .inr ⟨rfl, rfl⟩
  · exact fun _ => .inr ⟨rfl, rfl⟩
  · exact fun _ => .inr ⟨rfl, rfl⟩
  · rename_i leaves
    intro pending
    rcases attended pending with waiting | ⟨_, stays⟩
    · exact .inl waiting
    · rw [isLeaving, leaves] at stays
      cases stays

/-- **What one action does**: the queue stays attended, unless the action is one that misses. -/
theorem attended_step (action : ImportAction Entry) (heeds : ¬ system.Misses action)
    (attended : system.Attended) : (system.step importText newId action).Attended := by
  cases action with
  | import_ importData =>
      intro pending
      rcases attended pending with ⟨call, member, waits⟩ | runs
      · exact .inl ⟨call, List.mem_append_left _ member, waits⟩
      · exact .inr runs
  | call index => exact attended_stepCall attended heeds
  | task => exact attended_stepTask importText newId attended
  | editor =>
      rw [step, stepEditor]
      split
      · split
        · exact attended
        · exact attended
      · exact attended
      · exact attended
      · exact attended
  | change edited =>
      rw [step, changeEdited]
      split
      · exact attended
      · exact attended

/-- **No import request is lost** in a run without an action that misses. -/
theorem not_lost (file : UserDictionaryStorage Entry) (actions : List (ImportAction Entry))
    (heeded : AllAlong (step importText newId) (fun system action => ¬ system.Misses action)
      { file := file } actions) :
    ¬ (run importText newId { file := file } actions).Lost := by
  refine Attended.keeps ?_
  refine foldl_preserves (fun _ action heeds => attended_step importText newId action heeds) heeded ?_
  exact fun pending => absurd rfl pending

end Steps

/-! ## Two imports -/

section Example

/-- No dictionaries. -/
def noDictionaries : UserDictionaryStorage ByteString := ⟨[], List.nodup_nil, List.nodup_nil⟩

/-- A text is imported as one entry. -/
def oneEntry (text : ByteString) : List ByteString := [text]

/-- An import is called, and its task goes on until it leaves its loop. -/
def firstImport : List (ImportAction ByteString) :=
  .import_ ⟨[0x61], [0x31]⟩ :: List.replicate 4 (.call 0) ++ List.replicate 9 .task

/-- When the second import is called after the task has ended, it schedules another one. -/
theorem not_lost_afterTask :
    ¬ (run oneEntry (.counting ByteString) { file := noDictionaries }
      (firstImport ++ [.task, .import_ ⟨[0x62], [0x32]⟩, .call 1, .call 1])).Lost :=
  not_lost oneEntry (.counting ByteString) noDictionaries _ (by decide)

/-- **The second import is lost** when it is called after the task has found the queue empty. -/
theorem lost_whileLeaving :
    (run oneEntry (.counting ByteString) { file := noDictionaries }
      (firstImport ++ [.import_ ⟨[0x62], [0x32]⟩, .call 1, .call 1, .task])).Lost := by
  decide

end Example

end ImportSystem

end Mozkey.Dictionary
