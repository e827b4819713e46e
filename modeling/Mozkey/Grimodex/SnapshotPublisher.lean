import Mozkey.Grimodex.ProtocolV1

/-!
# Publishing snapshots

A publisher shows the latest snapshot with a sequence number, by which its readers know
whether their copy is still good.  The number grows when the content of the snapshot
changes, and stays when only times or digests do.  After one failure that may pass by
itself the old snapshot is kept; after a second one it is given up.
-/

namespace Mozkey.Grimodex

/-! ## The publisher -/

structure PublishedProtocolV1Snapshot where
  sequence : UInt64 := 0
  snapshot : Option ProtocolV1Snapshot := none
  diagnostic : LoadDiagnostic := .inactive

structure ProtocolV1SnapshotPublisher where
  consecutiveRetryableFailures : UInt64 := 0
  published : PublishedProtocolV1Snapshot := {}

/-- The last sequence number. -/
def kMaxSequence : UInt64 := 0xFFFFFFFFFFFFFFFF

/-- Both without a snapshot, or with semantically equal ones. -/
def SameContent : Option ProtocolV1Snapshot → Option ProtocolV1Snapshot → Prop
  | none, none => True
  | some snapshot, some other => snapshot.SemanticallyEquals other
  | _, _ => False

instance : (snapshot other : Option ProtocolV1Snapshot) → Decidable (SameContent snapshot other)
  | none, none => isTrue trivial
  | some snapshot, some other => inferInstanceAs (Decidable (snapshot.SemanticallyEquals other))
  | none, some _ => isFalse id
  | some _, none => isFalse id

/-- The publication of a result. -/
def publish (published : PublishedProtocolV1Snapshot) (result : LoadResult) :
    PublishedProtocolV1Snapshot where
  sequence :=
    if ¬ SameContent published.snapshot result.snapshot ∧ published.sequence ≠ kMaxSequence then
      published.sequence + 1
    else published.sequence
  snapshot := result.snapshot
  diagnostic := result.diagnostic

/-- `ProtocolV1SnapshotPublisher::Reload`, with the result of the load. -/
def reload (s : ProtocolV1SnapshotPublisher) (result : LoadResult) : ProtocolV1SnapshotPublisher :=
  if result.isRetryable then
    let failures := s.consecutiveRetryableFailures + 1
    if failures = 1 then
      { consecutiveRetryableFailures := failures
        published := { s.published with diagnostic := result.diagnostic } }
    else { consecutiveRetryableFailures := failures, published := publish s.published result }
  else { consecutiveRetryableFailures := 0, published := publish s.published result }

/-- The publisher after the first `n` results. -/
def publisherAfter (results : List LoadResult) (n : Nat) : ProtocolV1SnapshotPublisher :=
  (results.take n).foldl reload {}

def publishedAfter (results : List LoadResult) (n : Nat) : PublishedProtocolV1Snapshot :=
  (publisherAfter results n).published

theorem publisherAfter_succ {results : List LoadResult} {n : Nat} {result : LoadResult}
    (next : results[n]? = some result) :
    publisherAfter results (n + 1) = reload (publisherAfter results n) result := by
  rw [publisherAfter, List.take_add_one, next, List.foldl_append]
  rfl

/-- Behind the last result nothing changes any more. -/
theorem publisherAfter_succ_of_end {results : List LoadResult} {n : Nat}
    (atEnd : results[n]? = none) : publisherAfter results (n + 1) = publisherAfter results n := by
  rw [publisherAfter, List.take_add_one, atEnd, Option.toList_none, List.append_nil]
  rfl

/-! ## Content and sequence number -/

theorem SameContent.refl (snapshot : Option ProtocolV1Snapshot) : SameContent snapshot snapshot := by
  cases snapshot with
  | none => trivial
  | some snapshot => exact ⟨rfl, rfl, rfl, rfl⟩

theorem SameContent.trans {first second third : Option ProtocolV1Snapshot}
    (same : SameContent first second) (same' : SameContent second third) :
    SameContent first third := by
  cases first <;> cases second <;> cases third <;> try trivial
  obtain ⟨id, name, entries, conditions⟩ := same
  obtain ⟨id', name', entries', conditions'⟩ := same'
  exact ⟨id.trans id', name.trans name', entries.trans entries', conditions.trans conditions'⟩

theorem toNat_succ {sequence : UInt64} (notLast : sequence ≠ kMaxSequence) :
    (sequence + 1).toNat = sequence.toNat + 1 := by
  have ne : sequence.toNat ≠ 2 ^ 64 - 1 := fun same =>
    notLast (UInt64.toNat_inj.1 (same.trans (by decide)))
  have less := sequence.toNat_lt
  rw [UInt64.toNat_add, UInt64.toNat_one, Nat.mod_eq_of_lt (by omega)]

/-- What a step does to the sequence number: one more for other content, and nothing
else. -/
structure Numbered (before after : PublishedProtocolV1Snapshot) : Prop where
  changed : ¬ SameContent before.snapshot after.snapshot → before.sequence ≠ kMaxSequence →
    after.sequence.toNat = before.sequence.toNat + 1
  unchanged : SameContent before.snapshot after.snapshot ∨ before.sequence = kMaxSequence →
    after.sequence = before.sequence

theorem numbered_publish (published : PublishedProtocolV1Snapshot) (result : LoadResult) :
    Numbered published (publish published result) where
  changed other notLast := by
    rw [publish, if_pos ⟨other, notLast⟩]
    exact toNat_succ notLast
  unchanged same := by
    rw [publish, if_neg]
    rintro ⟨other, notLast⟩
    exact same.elim other notLast

theorem numbered_reload (s : ProtocolV1SnapshotPublisher) (result : LoadResult) :
    Numbered s.published (reload s result).published := by
  rw [reload]
  split
  · dsimp only
    split
    · exact ⟨fun other => absurd (SameContent.refl _) other, fun _ => rfl⟩
    · exact numbered_publish _ _
  · exact numbered_publish _ _

theorem numbered_succ (results : List LoadResult) (n : Nat) :
    Numbered (publishedAfter results n) (publishedAfter results (n + 1)) := by
  rw [publishedAfter, publishedAfter]
  cases next : results[n]? with
  | none =>
      rw [publisherAfter_succ_of_end next]
      exact ⟨fun other => absurd (SameContent.refl _) other, fun _ => rfl⟩
  | some result =>
      rw [publisherAfter_succ next]
      exact numbered_reload _ _

theorem Numbered.le {before after : PublishedProtocolV1Snapshot} (numbered : Numbered before after) :
    before.sequence.toNat ≤ after.sequence.toNat := by
  by_cases same : SameContent before.snapshot after.snapshot ∨ before.sequence = kMaxSequence
  · rw [numbered.unchanged same]
  · rw [not_or] at same
    rw [numbered.changed same.1 same.2]
    exact Nat.le_succ _

/-- The same number below the last one stands for the same content. -/
theorem Numbered.sameContent {before after : PublishedProtocolV1Snapshot}
    (numbered : Numbered before after) (same : after.sequence.toNat = before.sequence.toNat)
    (notLast : before.sequence ≠ kMaxSequence) : SameContent before.snapshot after.snapshot := by
  by_contra other
  have more := numbered.changed other notLast
  omega

theorem sequence_mono (results : List LoadResult) {n m : Nat} (le : n ≤ m) :
    (publishedAfter results n).sequence.toNat ≤ (publishedAfter results m).sequence.toNat := by
  induction m, le using Nat.le_induction with
  | base => exact Nat.le_refl _
  | succ m _ ih => exact ih.trans (numbered_succ results m).le

theorem sameContent_of_sequence_eq (results : List LoadResult) {n m : Nat} (le : n ≤ m)
    (same : (publishedAfter results n).sequence = (publishedAfter results m).sequence)
    (notLast : (publishedAfter results n).sequence ≠ kMaxSequence) :
    SameContent (publishedAfter results n).snapshot (publishedAfter results m).snapshot := by
  induction m, le using Nat.le_induction with
  | base => exact SameContent.refl _
  | succ m le ih =>
      -- the number in between is the same as well
      have first := sequence_mono results le
      have second := (numbered_succ results m).le
      rw [← same] at second
      have between : (publishedAfter results m).sequence = (publishedAfter results n).sequence :=
        UInt64.toNat_inj.1 (Nat.le_antisymm second first)
      refine (ih between.symm).trans ((numbered_succ results m).sameContent ?_ ?_)
      · rw [← same, between]
      · rw [between]
        exact notLast

/-! ## Failures -/

/-- How many of the first `n` results, counted from the last one, are retryable in a
row. -/
def retryableRun (results : List LoadResult) (n : Nat) : Nat :=
  ((results.take n).reverse.takeWhile LoadResult.isRetryable).length

theorem retryableRun_succ {results : List LoadResult} {n : Nat} {result : LoadResult}
    (next : results[n]? = some result) :
    retryableRun results (n + 1)
      = if result.isRetryable then retryableRun results n + 1 else 0 := by
  rw [retryableRun, List.take_add_one, next, Option.toList_some, List.reverse_append,
    List.reverse_singleton, List.singleton_append, List.takeWhile_cons]
  cases result.isRetryable <;> rfl

/-- The counter counts the failures, up to its size, and after two of them there is no
snapshot. -/
structure CountsFailures (s : ProtocolV1SnapshotPublisher) (run : Nat) : Prop where
  counted : s.consecutiveRetryableFailures = UInt64.ofNat run
  givenUp : 2 ≤ run → s.published.snapshot = none

theorem countsFailures_reload {s : ProtocolV1SnapshotPublisher} {run : Nat}
    (counts : CountsFailures s run) (result : LoadResult) :
    CountsFailures (reload s result) (if result.isRetryable then run + 1 else 0) := by
  rw [reload]
  by_cases retryable : result.isRetryable = true
  · rw [if_pos retryable, if_pos retryable]
    have counted : s.consecutiveRetryableFailures + 1 = UInt64.ofNat (run + 1) := by
      rw [counts.counted, UInt64.ofNat_add]
      rfl
    dsimp only
    by_cases first : s.consecutiveRetryableFailures + 1 = 1
    · rw [if_pos first]
      refine ⟨counted, fun two => ?_⟩
      -- the counter has gone round
      have wrapped : UInt64.ofNat run = 0 := by
        rw [← counts.counted]
        exact UInt64.add_eq_right.1 first
      refine counts.givenUp ?_
      by_contra notTwo
      obtain rfl : run = 1 := by omega
      exact absurd wrapped (by decide)
    · rw [if_neg first]
      exact ⟨counted, fun _ => LoadResult.snapshot_eq_none retryable⟩
  · rw [if_neg retryable, if_neg retryable]
    exact ⟨rfl, fun two => absurd two (by decide)⟩

theorem countsFailures (results : List LoadResult) (n : Nat) :
    CountsFailures (publisherAfter results n) (retryableRun results n) := by
  induction n with
  | zero =>
      have noRun : retryableRun results 0 = 0 := rfl
      rw [noRun]
      exact ⟨rfl, fun two => absurd two (by decide)⟩
  | succ n ih =>
      cases next : results[n]? with
      | none =>
          rw [publisherAfter_succ_of_end next]
          have sameRun : retryableRun results (n + 1) = retryableRun results n := by
            rw [retryableRun, List.take_add_one, next, Option.toList_none, List.append_nil]
            rfl
          rw [sameRun]
          exact ih
      | some result =>
          rw [publisherAfter_succ next, retryableRun_succ next]
          exact countsFailures_reload ih result

/-! ## Whole runs -/

/-- What readers of the publications rely on, over a run of reloads. -/
structure PublishesInOrder (results : List LoadResult) : Prop where
  monotone : ∀ n m, n ≤ m →
    (publishedAfter results n).sequence ≤ (publishedAfter results m).sequence
  sameNumber : ∀ n m, (publishedAfter results n).sequence = (publishedAfter results m).sequence →
    (publishedAfter results n).sequence ≠ kMaxSequence →
      SameContent (publishedAfter results n).snapshot (publishedAfter results m).snapshot
  changed : ∀ n, ¬ SameContent (publishedAfter results n).snapshot
      (publishedAfter results (n + 1)).snapshot →
    (publishedAfter results n).sequence ≠ kMaxSequence →
      (publishedAfter results (n + 1)).sequence.toNat
        = (publishedAfter results n).sequence.toNat + 1
  /-- The first retryable failure keeps the snapshot, and the next one gives it up. -/
  retryable : ∀ n result, results[n]? = some result → result.isRetryable = true →
    (publishedAfter results (n + 1)).diagnostic = result.diagnostic ∧
      (publishedAfter results (n + 1)).snapshot =
        if retryableRun results n = 0 then (publishedAfter results n).snapshot else none
  nonRetryable : ∀ n result, results[n]? = some result → result.isRetryable = false →
    ((publishedAfter results (n + 1)).snapshot = result.snapshot ∧
      (publishedAfter results (n + 1)).diagnostic = result.diagnostic) ∧
      (publisherAfter results (n + 1)).consecutiveRetryableFailures = 0

theorem SameContent.symm {snapshot other : Option ProtocolV1Snapshot}
    (same : SameContent snapshot other) : SameContent other snapshot := by
  cases snapshot <;> cases other <;> try trivial
  obtain ⟨id, name, entries, conditions⟩ := same
  exact ⟨id.symm, name.symm, entries.symm, conditions.symm⟩

/-- **Every run of reloads publishes in order.** -/
theorem publishesInOrder (results : List LoadResult) : PublishesInOrder results where
  monotone n m le := UInt64.le_iff_toNat_le.2 (sequence_mono results le)
  sameNumber n m same notLast := by
    rcases Nat.le_total n m with le | le
    · exact sameContent_of_sequence_eq results le same notLast
    · exact (sameContent_of_sequence_eq results le same.symm (same ▸ notLast)).symm
  changed n := (numbered_succ results n).changed
  retryable n result next isRetryable := by
    obtain ⟨counted, givenUp⟩ := countsFailures results n
    rw [publishedAfter, publisherAfter_succ next, reload, if_pos isRetryable]
    dsimp only
    by_cases first : (publisherAfter results n).consecutiveRetryableFailures + 1 = 1
    · rw [if_pos first]
      refine ⟨rfl, ?_⟩
      by_cases noRun : retryableRun results n = 0
      · rw [if_pos noRun]
        rfl
      · rw [if_neg noRun]
        refine givenUp ?_
        by_contra notTwo
        have one : retryableRun results n = 1 := by omega
        rw [counted, one] at first
        exact absurd first (by decide)
    · rw [if_neg first]
      refine ⟨rfl, ?_⟩
      have run : retryableRun results n ≠ 0 := by
        intro noRun
        rw [counted, noRun] at first
        exact first (by decide)
      rw [if_neg run]
      exact LoadResult.snapshot_eq_none isRetryable
  nonRetryable n result next notRetryable := by
    rw [publishedAfter, publisherAfter_succ next, reload,
      if_neg fun retryable => Bool.false_ne_true (notRetryable.symm.trans retryable)]
    exact ⟨⟨rfl, rfl⟩, rfl⟩

end Mozkey.Grimodex
