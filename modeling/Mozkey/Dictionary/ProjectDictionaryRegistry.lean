import Mozkey.Dictionary.ProjectDictionary
import Mozkey.Lib.Run

/-!
# The registry of a session's project dictionaries

A session publishes snapshots to its registry, of which the latest is kept, and pins the latest one
for a composition.  Secure input keeps the registry empty.

`registry_invariants` states what holds in every state of every run: nothing is held while secure
input is on, the generations only grow from one purge to the next, and what is pinned is not newer
than the latest snapshot.
-/

namespace Mozkey.Dictionary

open Mozkey.Lib

/-- `ProjectDictionaryRegistry`. -/
structure ProjectDictionaryRegistry where
  secureInput : Bool := false
  latest : Option ProjectDictionarySnapshot := none
  pinned : Option ProjectDictionarySnapshot := none

namespace ProjectDictionaryRegistry

/-- `PublishResult`. -/
inductive PublishResult
  | kApplied
  | kUnchanged
  | kRejectedNull
  | kRejectedSecure
  | kRejectedStale
  | kRejectedConflict
  deriving DecidableEq, Repr

/-- `Publish`. -/
def publish (registry : ProjectDictionaryRegistry) (snapshot : Option ProjectDictionarySnapshot) :
    PublishResult × ProjectDictionaryRegistry :=
  match snapshot with
  | none => (.kRejectedNull, registry)
  | some snapshot =>
      if registry.secureInput then (.kRejectedSecure, registry)
      else
        match registry.latest with
        | none => (.kApplied, { registry with latest := some snapshot })
        | some latest =>
            if snapshot.generation < latest.generation then (.kRejectedStale, registry)
            else if snapshot.generation = latest.generation then
              if snapshot.sourceId = latest.sourceId ∧ snapshot.fingerprint = latest.fingerprint then
                (.kUnchanged, registry)
              else (.kRejectedConflict, registry)
            else (.kApplied, { registry with latest := some snapshot })

/-- `PinForComposition`. -/
def pinForComposition (registry : ProjectDictionaryRegistry) :
    Option ProjectDictionarySnapshot × ProjectDictionaryRegistry :=
  let pinned := if registry.secureInput then none else registry.latest
  (pinned, { registry with pinned := pinned })

/-- `EndComposition`. -/
def endComposition (registry : ProjectDictionaryRegistry) : ProjectDictionaryRegistry :=
  { registry with pinned := none }

/-- `SetSecureInput`. -/
def setSecureInput (registry : ProjectDictionaryRegistry) (secure : Bool) :
    ProjectDictionaryRegistry :=
  if secure then ⟨secure, none, none⟩ else { registry with secureInput := secure }

/-- `Purge`. -/
def purge (registry : ProjectDictionaryRegistry) : ProjectDictionaryRegistry :=
  { registry with latest := none, pinned := none }

/-! ## Runs -/

/-- The calls that change a registry. -/
inductive Operation
  | publish (snapshot : Option ProjectDictionarySnapshot)
  | pinForComposition
  | endComposition
  | setSecureInput (secure : Bool)
  | purge

/-- The call purges the registry. -/
def Operation.Purges : Operation → Prop
  | .setSecureInput secure => secure = true
  | .purge => True
  | _ => False

/-- The call may change what is pinned. -/
def Operation.Pins : Operation → Prop
  | .pinForComposition => True
  | .endComposition => True
  | operation => operation.Purges

def step (registry : ProjectDictionaryRegistry) : Operation → ProjectDictionaryRegistry
  | .publish snapshot => (registry.publish snapshot).2
  | .pinForComposition => registry.pinForComposition.2
  | .endComposition => registry.endComposition
  | .setSecureInput secure => registry.setSecureInput secure
  | .purge => registry.purge

/-- The registry after a sequence of calls. -/
def after (operations : List Operation) : ProjectDictionaryRegistry := operations.foldl step {}

/-! ## What one call does -/

variable {registry : ProjectDictionaryRegistry}

/-- **What `Publish` does**: it changes nothing, or without secure input it puts a snapshot in the
place of an older one, or of none. -/
theorem publish_cases (snapshot : Option ProjectDictionarySnapshot) :
    (registry.publish snapshot).2 = registry ∨
      ∃ applied, registry.secureInput = false ∧
        (∀ latest, registry.latest = some latest → latest.generation < applied.generation) ∧
          (registry.publish snapshot).2 = { registry with latest := some applied } := by
  cases snapshot with
  | none => exact .inl rfl
  | some snapshot =>
      rw [publish]
      split
      · exact .inl rfl
      · rename_i insecure
        have open_ : registry.secureInput = false := Bool.eq_false_of_not_eq_true insecure
        split
        · rename_i none
          exact .inr ⟨snapshot, open_, fun _ absent => absurd (none.symm.trans absent) (by simp), rfl⟩
        · rename_i latest isLatest
          split
          · exact .inl rfl
          · rename_i notStale
            split
            · split
              · exact .inl rfl
              · exact .inl rfl
            · rename_i different
              refine .inr ⟨snapshot, open_, fun other isOther => ?_, rfl⟩
              obtain rfl := Option.some.inj (isLatest.symm.trans isOther)
              exact UInt64.lt_of_le_of_ne (UInt64.not_lt.1 notStale) fun same => different same.symm

/-- Nothing is held while secure input is on. -/
def Private (registry : ProjectDictionaryRegistry) : Prop :=
  registry.secureInput = true → registry.latest = none ∧ registry.pinned = none

/-- What is pinned is not newer than the latest snapshot. -/
def PinnedBelow (registry : ProjectDictionaryRegistry) : Prop :=
  ∀ pinned, registry.pinned = some pinned →
    ∃ latest, registry.latest = some latest ∧ pinned.generation ≤ latest.generation

/-- The latest snapshot stays, as far as its generation, source and fingerprint tell, or gives way
to one of a later generation. -/
def Continues (before after : ProjectDictionaryRegistry) : Prop :=
  ∀ earlier, before.latest = some earlier →
    ∃ later, after.latest = some later ∧ earlier.generation ≤ later.generation ∧
      (earlier.generation = later.generation →
        earlier.sourceId = later.sourceId ∧ earlier.fingerprint = later.fingerprint)

theorem Continues.refl (registry : ProjectDictionaryRegistry) : registry.Continues registry :=
  fun latest isLatest => ⟨latest, isLatest, UInt64.le_refl _, fun _ => ⟨rfl, rfl⟩⟩

theorem Continues.trans {first second third : ProjectDictionaryRegistry}
    (left : first.Continues second) (right : second.Continues third) : first.Continues third := by
  intro a isA
  obtain ⟨b, isB, ab, sameAB⟩ := left a isA
  obtain ⟨c, isC, bc, sameBC⟩ := right b isB
  refine ⟨c, isC, UInt64.le_trans ab bc, fun same => ?_⟩
  have middle : a.generation = b.generation := UInt64.le_antisymm ab (same ▸ bc)
  obtain ⟨sourceAB, fingerprintAB⟩ := sameAB middle
  obtain ⟨sourceBC, fingerprintBC⟩ := sameBC (middle.symm.trans same)
  exact ⟨sourceAB.trans sourceBC, fingerprintAB.trans fingerprintBC⟩

theorem step_private (operation : Operation) (isPrivate : registry.Private) :
    (registry.step operation).Private := by
  cases operation with
  | publish snapshot =>
      rcases registry.publish_cases snapshot with same | ⟨applied, insecure, _, changed⟩
      · rw [step, same]
        exact isPrivate
      · rw [step, changed]
        exact fun secure => absurd (insecure.symm.trans secure) Bool.false_ne_true
  | pinForComposition =>
      intro secure
      have isSecure : registry.secureInput = true := secure
      exact ⟨(isPrivate isSecure).1, if_pos isSecure⟩
  | endComposition => exact fun secure => ⟨(isPrivate secure).1, rfl⟩
  | setSecureInput secure =>
      cases secure with
      | true => exact fun _ => ⟨rfl, rfl⟩
      | false => exact fun wrong => absurd wrong Bool.false_ne_true
  | purge => exact fun _ => ⟨rfl, rfl⟩

theorem step_pinnedBelow (operation : Operation) (below : registry.PinnedBelow) :
    (registry.step operation).PinnedBelow := by
  cases operation with
  | publish snapshot =>
      rcases registry.publish_cases snapshot with same | ⟨applied, _, newer, changed⟩
      · rw [step, same]
        exact below
      · rw [step, changed]
        intro pinned isPinned
        obtain ⟨latest, isLatest, notAbove⟩ := below pinned isPinned
        exact ⟨applied, rfl, UInt64.le_of_lt (UInt64.lt_of_le_of_lt notAbove (newer latest isLatest))⟩
  | pinForComposition =>
      intro pinned isPinned
      have chosen : (if registry.secureInput then none else registry.latest) = some pinned := isPinned
      split at chosen
      · cases chosen
      · exact ⟨pinned, chosen, UInt64.le_refl _⟩
  | endComposition => exact fun _ absent => by cases absent
  | setSecureInput secure =>
      cases secure with
      | true => exact fun _ absent => by cases absent
      | false => exact below
  | purge => exact fun _ absent => by cases absent

theorem step_continues (operation : Operation) (keeps : ¬ operation.Purges) :
    registry.Continues (registry.step operation) := by
  cases operation with
  | publish snapshot =>
      rcases registry.publish_cases snapshot with same | ⟨applied, _, newer, changed⟩
      · rw [step, same]
        exact Continues.refl registry
      · rw [step, changed]
        intro latest isLatest
        have less := newer latest isLatest
        exact ⟨applied, rfl, UInt64.le_of_lt less, fun same => absurd (same ▸ less) (UInt64.lt_irrefl _)⟩
  | pinForComposition => exact Continues.refl registry
  | endComposition => exact Continues.refl registry
  | setSecureInput secure =>
      cases secure with
      | true => exact absurd rfl keeps
      | false => exact Continues.refl registry
  | purge => exact absurd trivial keeps

/-- What is pinned changes through `PinForComposition`, `EndComposition` and purges only. -/
theorem step_pinned (operation : Operation) (keeps : ¬ operation.Pins) :
    (registry.step operation).pinned = registry.pinned := by
  cases operation with
  | publish snapshot =>
      rcases registry.publish_cases snapshot with same | ⟨applied, _, _, changed⟩
      · rw [step, same]
      · rw [step, changed]
  | pinForComposition => exact absurd trivial keeps
  | endComposition => exact absurd trivial keeps
  | setSecureInput secure =>
      cases secure with
      | true => exact absurd rfl keeps
      | false => rfl
  | purge => exact absurd trivial keeps

/-! ## What a run keeps -/

theorem allAlong_trivial (operations : List Operation) (registry : ProjectDictionaryRegistry) :
    AllAlong step (fun _ _ => True) registry operations := by
  induction operations generalizing registry with
  | nil => trivial
  | cons operation operations ih => exact ⟨trivial, ih _⟩

/-- From one purge to the next, the latest snapshot continues. -/
theorem foldl_continues {operations : List Operation} (keeps : ∀ operation ∈ operations, ¬ operation.Purges)
    (registry : ProjectDictionaryRegistry) : registry.Continues (operations.foldl step registry) := by
  induction operations generalizing registry with
  | nil => exact Continues.refl registry
  | cons operation operations ih =>
      obtain ⟨first, others⟩ := List.forall_mem_cons.1 keeps
      exact (step_continues operation first).trans (ih others _)

/-- **The invariants of the registry**, after every sequence of calls. -/
theorem registry_invariants (operations : List Operation) :
    (after operations).Private ∧ (after operations).PinnedBelow ∧
      (∀ operation, ¬ operation.Pins →
        (after (operations ++ [operation])).pinned = (after operations).pinned) ∧
      ∀ more : List Operation, (∀ operation ∈ more, ¬ operation.Purges) →
        (after operations).Continues (after (operations ++ more)) := by
  have along := allAlong_trivial operations {}
  refine ⟨?_, ?_, fun operation keeps => ?_, fun more keeps => ?_⟩
  · exact foldl_preserves (fun _ operation _ => step_private operation) along fun _ => ⟨rfl, rfl⟩
  · exact foldl_preserves (fun _ operation _ => step_pinnedBelow operation) along
      fun _ absent => by cases absent
  · rw [after, List.foldl_append]
    exact step_pinned operation keeps
  · rw [after, after, List.foldl_append]
    exact foldl_continues keeps _

end ProjectDictionaryRegistry

end Mozkey.Dictionary
