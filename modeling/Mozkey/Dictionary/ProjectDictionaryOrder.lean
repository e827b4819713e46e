import Mozkey.Dictionary.ProjectDictionaryLookup

/-!
# The order of the entries of a project dictionary

Which lists of entries are accepted does not depend on the order of the entries, and of the entries
with the same key, value, lid and rid exactly one is kept, the best one (`oneEach_storedEntries`).

The cost is compared by neither of the two sorts.  Where the best entries of such a group differ in
nothing but their costs, the sort function decides which of them is kept, and with it what lookups
report.  `contract_iff_costsAgree` says that there is no other exception.
-/

namespace Mozkey.Dictionary

open Mozkey.Lib

/-! ## Accepted lists -/

/-- What is checked of an entry, apart from the size of the payload. -/
structure ProjectDictionaryEntry.Acceptable (entry : ProjectDictionaryEntry) : Prop where
  present : ¬ (entry.key = [] ∨ entry.value = [])
  text : ¬ (¬ Strings.isValidUtf8 entry.key ∨ ¬ Strings.isValidUtf8 entry.value ∨
    Strings.atLeastCharsLen entry.key (kMaxTextScalars + 1) > kMaxTextScalars ∨
      Strings.atLeastCharsLen entry.value (kMaxTextScalars + 1) > kMaxTextScalars)
  identifier : validateIdentifier entry.entryId "entry_id" = .ok ()
  cost : ¬ entry.cost ≤ 0
  priority : ¬ (entry.priority < 1 ∨ entry.priority > 3)

theorem validateEntry_ok {payloadBytes counted : Nat} {entry : ProjectDictionaryEntry} :
    validateEntry payloadBytes entry = .ok counted ↔
      entry.Acceptable ∧ payloadBytes + entry.payload ≤ kMaxPayloadBytes ∧
        counted = payloadBytes + entry.payload := by
  rw [validateEntry]
  by_cases present : entry.key = [] ∨ entry.value = []
  · rw [if_pos present]
    exact iff_of_false (fun wrong => by cases wrong) fun all => all.1.present present
  rw [if_neg present]
  by_cases text : ¬ Strings.isValidUtf8 entry.key ∨ ¬ Strings.isValidUtf8 entry.value ∨
    Strings.atLeastCharsLen entry.key (kMaxTextScalars + 1) > kMaxTextScalars ∨
      Strings.atLeastCharsLen entry.value (kMaxTextScalars + 1) > kMaxTextScalars
  · rw [if_pos text]
    exact iff_of_false (fun wrong => by cases wrong) fun all => all.1.text text
  rw [if_neg text]
  cases identifier : validateIdentifier entry.entryId "entry_id" with
  | error error =>
      exact iff_of_false (fun wrong => by cases wrong)
        fun all => by cases identifier.symm.trans all.1.identifier
  | ok _ =>
      by_cases large : payloadBytes + entry.payload > kMaxPayloadBytes
      · refine iff_of_false (fun wrong => ?_) fun all => absurd all.2.1 (not_le.2 large)
        simp only [if_pos large] at wrong
        cases wrong
      by_cases cost : entry.cost ≤ 0
      · refine iff_of_false (fun wrong => ?_) fun all => all.1.cost cost
        simp only [if_neg large, if_pos cost] at wrong
        cases wrong
      by_cases priority : entry.priority < 1 ∨ entry.priority > 3
      · refine iff_of_false (fun wrong => ?_) fun all => all.1.priority priority
        simp only [if_neg large, if_neg cost, if_pos priority] at wrong
        cases wrong
      simp only [if_neg large, if_neg cost, if_neg priority]
      constructor
      · intro valid
        cases valid
        exact ⟨⟨present, text, identifier, cost, priority⟩, not_lt.1 large, rfl⟩
      · rintro ⟨_, _, rfl⟩
        rfl

theorem validateEntries_ok {payloadBytes : Nat} {entries : List ProjectDictionaryEntry} :
    validateEntries payloadBytes entries = .ok () ↔
      (∀ entry ∈ entries, entry.Acceptable) ∧
        (entries ≠ [] →
          payloadBytes + (entries.map ProjectDictionaryEntry.payload).sum ≤ kMaxPayloadBytes) := by
  induction entries generalizing payloadBytes with
  | nil => exact iff_of_true rfl ⟨List.forall_mem_nil _, fun some_ => absurd rfl some_⟩
  | cons entry entries ih =>
      rw [validateEntries, List.forall_mem_cons, List.map_cons, List.sum_cons]
      cases first : validateEntry payloadBytes entry with
      | error error =>
          refine iff_of_false (fun wrong => by cases wrong) fun all => ?_
          have small := all.2 (List.cons_ne_nil _ _)
          have valid : validateEntry payloadBytes entry = .ok (payloadBytes + entry.payload) :=
            validateEntry_ok.2 ⟨all.1.1, by omega, rfl⟩
          cases first.symm.trans valid
      | ok counted =>
          obtain ⟨acceptable, small, rfl⟩ := validateEntry_ok.1 first
          change validateEntries (payloadBytes + entry.payload) entries = .ok () ↔ _
          rw [ih]
          constructor
          · rintro ⟨others, sum⟩
            refine ⟨⟨acceptable, others⟩, fun _ => ?_⟩
            cases entries with
            | nil => simpa using small
            | cons next rest =>
                have total := sum (List.cons_ne_nil _ _)
                omega
          · rintro ⟨⟨_, others⟩, sum⟩
            refine ⟨others, fun _ => ?_⟩
            have total := sum (List.cons_ne_nil _ _)
            omega

theorem validateEntries_perm {payloadBytes : Nat} {entries others : List ProjectDictionaryEntry}
    (perm : others.Perm entries) (valid : validateEntries payloadBytes entries = .ok ()) :
    validateEntries payloadBytes others = .ok () := by
  obtain ⟨acceptable, small⟩ := validateEntries_ok.1 valid
  refine validateEntries_ok.2 ⟨fun entry member => acceptable entry (perm.subset member), fun some_ => ?_⟩
  rw [(perm.map ProjectDictionaryEntry.payload).sum_eq]
  exact small fun none => some_ (none ▸ perm).eq_nil

theorem validateHeader_perm {sourceId fingerprint : ByteString} {metadata : ProjectDictionaryMetadata}
    {entries others : List ProjectDictionaryEntry} (perm : others.Perm entries) :
    validateHeader sourceId fingerprint others metadata
      = validateHeader sourceId fingerprint entries metadata := by
  rw [validateHeader, validateHeader, perm.length_eq]

namespace ProjectDictionarySnapshot

variable {order : SortFunction StoredEntry} {generation : UInt64} {sourceId fingerprint : ByteString}
  {entries others : List ProjectDictionaryEntry} {metadata : ProjectDictionaryMetadata}
  {snapshot : ProjectDictionarySnapshot}

/-- A list is accepted if its checks succeed. -/
theorem create_ok_iff :
    (∃ snapshot, create order generation sourceId fingerprint entries metadata = .ok snapshot) ↔
      ∃ payloadBytes, validateHeader sourceId fingerprint entries metadata = .ok payloadBytes ∧
        validateEntries payloadBytes entries = .ok () := by
  rw [create]
  cases header : validateHeader sourceId fingerprint entries metadata with
  | error error =>
      exact iff_of_false (fun ⟨_, wrong⟩ => by cases wrong) fun ⟨_, wrong, _⟩ => by cases wrong
  | ok payloadBytes =>
      dsimp only
      constructor
      · rintro ⟨snapshot, created⟩
        split at created
        · cases created
        · rename_i valid
          exact ⟨payloadBytes, rfl, valid⟩
      · rintro ⟨_, same, valid⟩
        cases same
        split
        · rename_i error invalid
          cases invalid.symm.trans valid
        · exact ⟨_, rfl⟩

theorem create_entries
    (created : create order generation sourceId fingerprint entries metadata = .ok snapshot) :
    snapshot.entries = storedEntries order (entries.map ProjectDictionaryEntry.stored) := by
  rw [create] at created
  split at created
  · cases created
  · split at created
    · cases created
    · cases created
      rfl

/-- The order of the entries does not matter for their acceptance. -/
theorem create_perm (perm : others.Perm entries)
    (created : create order generation sourceId fingerprint entries metadata = .ok snapshot) :
    ∃ other, create order generation sourceId fingerprint others metadata = .ok other := by
  obtain ⟨payloadBytes, header, valid⟩ := create_ok_iff.1 ⟨snapshot, created⟩
  exact create_ok_iff.2
    ⟨payloadBytes, (validateHeader_perm perm).trans header, validateEntries_perm perm valid⟩

end ProjectDictionarySnapshot

/-! ## One entry each -/

/-- Of two entries with the same identity, the first one is the better one, or as good. -/
def Precedes (a b : StoredEntry) : Prop :=
  b.priority < a.priority ∨ a.priority = b.priority ∧ a.entryId ≤ b.entryId

instance instDecidablePrecedes (a b : StoredEntry) : Decidable (Precedes a b) :=
  inferInstanceAs (Decidable (_ ∨ _))

theorem identityRank_le_iff {a b : StoredEntry} (same : identity a = identity b) :
    identityRank a ≤ identityRank b ↔ Precedes a b := by
  rw [identityRank, identityRank, Precedes, Prod.Lex.toLex_le_toLex, Prod.Lex.toLex_le_toLex,
    UInt8.lt_iff_toNat_lt, ← UInt8.toNat_inj]
  constructor
  · rintro (less | ⟨_, less | ⟨equal, below⟩⟩)
    · exact absurd same less.ne
    · exact .inl (by omega)
    · exact .inr ⟨by omega, below⟩
  · rintro (less | ⟨equal, below⟩)
    · exact .inr ⟨same, .inl (by omega)⟩
    · exact .inr ⟨same, .inr ⟨by omega, below⟩⟩

theorem identity_le_of_identityRank {a b : StoredEntry} (before : identityRank a ≤ identityRank b) :
    identity a ≤ identity b := by
  rcases Prod.Lex.toLex_le_toLex.1 before with less | same
  · exact less.le
  · exact same.1.le

/-- Of each identity of the given entries, exactly one is stored, and none of the given ones is
better. -/
structure OneEach (given stored : List StoredEntry) : Prop where
  isGiven : ∀ entry ∈ stored, entry ∈ given
  present : ∀ entry ∈ given, ∃ kept ∈ stored, identity kept = identity entry
  once : (stored.map identity).Nodup
  best : ∀ kept ∈ stored, ∀ entry ∈ given, identity kept = identity entry → Precedes kept entry

section Stored

variable (order : SortFunction StoredEntry) (given : List StoredEntry)

/-- What the removal of duplicates leaves of the given entries. -/
def uniqueEntries : List StoredEntry :=
  (order.sort identityLess given).destutter fun lhs rhs => identity lhs ≠ identity rhs

theorem storedEntries_perm : (storedEntries order given).Perm (uniqueEntries order given) :=
  order.perm lookupLess _

theorem sorted_identity :
    (order.sort identityLess given).Pairwise fun a b => identity a ≤ identity b :=
  (order.sorted identityLess_ranked given).imp identity_le_of_identityRank

theorem uniqueEntries_lt :
    (uniqueEntries order given).Pairwise fun a b => identity a < identity b :=
  pairwise_lt_destutter (sorted_identity order given)

/-- **Of each identity, one entry is stored**, the best one. -/
theorem oneEach_storedEntries : OneEach given (storedEntries order given) where
  isGiven := fun _ member => storedEntries_subset order given member
  present := by
    intro entry member
    have sorted := (order.perm identityLess given).symm.subset member
    obtain ⟨kept, unique, same⟩ := @exists_mem_destutter _ _ _ identity _ _ sorted
    exact ⟨kept, (storedEntries_perm order given).symm.subset unique, same⟩
  once := by
    refine ((storedEntries_perm order given).map identity).nodup_iff.2 ?_
    exact List.pairwise_map.2 ((uniqueEntries_lt order given).imp ne_of_lt)
  best := by
    intro kept stored entry member same
    have unique := (storedEntries_perm order given).subset stored
    have sorted := (order.perm identityLess given).symm.subset member
    refine (identityRank_le_iff same).1 ?_
    exact least_of_mem_destutter (fun a b => identity_le_of_identityRank)
      (order.sorted identityLess_ranked given) unique sorted same.symm

end Stored

/-! ## Costs -/

/-- No entry of the list with the same identity is better. -/
def IsBest (given : List StoredEntry) (entry : StoredEntry) : Prop :=
  entry ∈ given ∧ ∀ other ∈ given, identity entry = identity other → Precedes entry other

/-- The best entries of an identity all have the same cost. -/
def CostsAgree (entries : List ProjectDictionaryEntry) : Prop :=
  let given := entries.map ProjectDictionaryEntry.stored
  ∀ a b, IsBest given a → IsBest given b → identity a = identity b → a.token.cost = b.token.cost

theorem OneEach.isBest {given stored : List StoredEntry} (each : OneEach given stored)
    {entry : StoredEntry} (member : entry ∈ stored) : IsBest given entry :=
  ⟨each.isGiven entry member, each.best entry member⟩

theorem IsBest.perm {given other : List StoredEntry} {entry : StoredEntry} (best : IsBest given entry)
    (perm : other.Perm given) : IsBest other entry :=
  ⟨perm.symm.subset best.1, fun o member => best.2 o (perm.subset member)⟩

/-- The best entries of an identity have the same rank. -/
theorem IsBest.rank_eq {given : List StoredEntry} {a b : StoredEntry} (bestA : IsBest given a)
    (bestB : IsBest given b) (same : identity a = identity b) : identityRank a = identityRank b :=
  le_antisymm ((identityRank_le_iff same).2 (bestA.2 b bestB.1 same))
    ((identityRank_le_iff same.symm).2 (bestB.2 a bestA.1 same.symm))

/-- Entries of a project dictionary are told apart by their rank and their cost. -/
theorem eq_of_rank_of_cost {entries : List ProjectDictionaryEntry} {a b : StoredEntry}
    (memberA : a ∈ entries.map ProjectDictionaryEntry.stored)
    (memberB : b ∈ entries.map ProjectDictionaryEntry.stored) (rank : identityRank a = identityRank b)
    (cost : a.token.cost = b.token.cost) : a = b := by
  obtain ⟨x, _, rfl⟩ := List.mem_map.1 memberA
  obtain ⟨y, _, rfl⟩ := List.mem_map.1 memberB
  have parts : identity x.stored = identity y.stored ∧
      (-(x.priority.toNat : Int), x.entryId) = (-(y.priority.toNat : Int), y.entryId) :=
    Prod.mk.inj rank
  have sameIdentity : (x.key, x.value, x.lid.toNat, x.rid.toNat)
      = (y.key, y.value, y.lid.toNat, y.rid.toNat) := parts.1
  have sameCost : x.cost = y.cost := cost
  simp only [Prod.mk.injEq, UInt16.toNat_inj] at sameIdentity
  have samePriority : x.priority = y.priority := by
    refine UInt8.toNat_inj.1 ?_
    have negated : -(x.priority.toNat : Int) = -(y.priority.toNat : Int) := (Prod.mk.inj parts.2).1
    omega
  have sameId : x.entryId = y.entryId := (Prod.mk.inj parts.2).2
  obtain ⟨key, value, lid, rid⟩ := sameIdentity
  rw [ProjectDictionaryEntry.stored, ProjectDictionaryEntry.stored, key, value, lid, rid, sameCost,
    samePriority, sameId]

theorem identity_eq_of_lookupRank {a b : StoredEntry} (rank : lookupRank a = lookupRank b) :
    identity a = identity b := by
  have parts : a.token.key = b.token.key ∧
      (-(a.priority.toNat : Int), a.token.value, a.token.lid.toNat, a.token.rid.toNat, a.entryId)
        = (-(b.priority.toNat : Int), b.token.value, b.token.lid.toNat, b.token.rid.toNat, b.entryId) :=
    Prod.mk.inj rank
  have rest := parts.2
  simp only [Prod.mk.injEq] at rest
  rw [identity, identity, parts.1, rest.2.1, rest.2.2.1, rest.2.2.2.1]

/-- **Where the costs agree**, what is stored depends neither on the order of the entries nor on the
sort function. -/
theorem storedEntries_perm_eq {entries others : List ProjectDictionaryEntry} (agree : CostsAgree entries)
    (perm : others.Perm entries) (order other : SortFunction StoredEntry) :
    storedEntries other (others.map ProjectDictionaryEntry.stored)
      = storedEntries order (entries.map ProjectDictionaryEntry.stored) := by
  have permStored := perm.map ProjectDictionaryEntry.stored
  generalize entries_ : entries.map ProjectDictionaryEntry.stored = given at permStored
  generalize others.map ProjectDictionaryEntry.stored = again at permStored
  have eachGiven := oneEach_storedEntries order given
  have eachAgain := oneEach_storedEntries other again
  have bestGiven := fun {entry} (unique : entry ∈ uniqueEntries order given) =>
    eachGiven.isBest ((storedEntries_perm order given).symm.subset unique)
  have bestAgain := fun {entry} (unique : entry ∈ uniqueEntries other again) =>
    (eachAgain.isBest ((storedEntries_perm other again).symm.subset unique)).perm permStored.symm
  have equal : ∀ {a b}, IsBest given a → IsBest given b → identity a = identity b → a = b := by
    intro a b bestA bestB same
    refine eq_of_rank_of_cost (entries_ ▸ bestA.1) (entries_ ▸ bestB.1) (bestA.rank_eq bestB same) ?_
    exact agree a b (entries_ ▸ bestA) (entries_ ▸ bestB) same
  have member : ∀ entry, entry ∈ uniqueEntries other again ↔ entry ∈ uniqueEntries order given := by
    intro entry
    constructor
    · intro unique
      have best := bestAgain unique
      obtain ⟨kept, stored, same⟩ := eachGiven.present entry best.1
      rw [equal best (eachGiven.isBest stored) same.symm]
      exact (storedEntries_perm order given).subset stored
    · intro unique
      have best := bestGiven unique
      obtain ⟨kept, stored, same⟩ := eachAgain.present entry (permStored.symm.subset best.1)
      rw [equal best ((eachAgain.isBest stored).perm permStored.symm) same.symm]
      exact (storedEntries_perm other again).subset stored
  have nodup := fun (o : SortFunction StoredEntry) (xs : List StoredEntry) =>
    (uniqueEntries_lt o xs).imp fun {a b} (less : identity a < identity b) =>
      (fun same => less.ne (congrArg identity same) : a ≠ b)
  have permUnique : (uniqueEntries other again).Perm (uniqueEntries order given) :=
    (List.perm_ext_iff_of_nodup (nodup other again) (nodup order given)).2 member
  have distinct : ((uniqueEntries order given).map lookupRank).Nodup :=
    List.pairwise_map.2 ((uniqueEntries_lt order given).imp fun {a b} less rank =>
      less.ne (identity_eq_of_lookupRank rank))
  have left := other.sort_eq lookupLess_ranked distinct permUnique
  have right := order.sort_eq lookupLess_ranked distinct (List.Perm.refl _)
  exact left.trans right.symm

/-! ## A stable sort keeps the first of the best entries -/

theorem identity_eq_of_identityRank {a b : StoredEntry} (rank : identityRank a = identityRank b) :
    identity a = identity b :=
  (Prod.mk.inj rank).1

theorem stableSort_keeps_first {a : StoredEntry} {rest : List StoredEntry}
    (best : IsBest (a :: rest) a) {kept : StoredEntry}
    (stored : kept ∈ storedEntries (stableSort StoredEntry) (a :: rest))
    (same : identity kept = identity a) : kept = a := by
  have each := oneEach_storedEntries (stableSort StoredEntry) (a :: rest)
  have rank : identityRank kept = identityRank a := (each.isBest stored).rank_eq best same
  obtain ⟨others, ofIdentity⟩ := List.head?_eq_some_iff.1
    (head_filter_destutter (sorted_identity (stableSort StoredEntry) (a :: rest))
      ((storedEntries_perm _ _).subset stored))
  have stable : ((stableSort StoredEntry).sort identityLess (a :: rest)).filter
        (fun entry => identityRank entry = identityRank a)
      = (a :: rest).filter fun entry => identityRank entry = identityRank a := by
    refine filter_sortBy fun x _ y _ rankX rankY => ?_
    refine Bool.eq_false_of_not_eq_true fun better => ?_
    have less := (identityLess_ranked y x).1 better
    rw [of_decide_eq_true rankX, of_decide_eq_true rankY] at less
    exact lt_irrefl _ less
  -- The entries of that rank are among those of the identity, and the kept one is the first of both.
  have narrow : ((stableSort StoredEntry).sort identityLess (a :: rest)).filter
        (fun entry => identityRank entry = identityRank a)
      = (kept :: others).filter fun entry => identityRank entry = identityRank a := by
    rw [← ofIdentity, List.filter_filter]
    refine List.filter_congr fun entry _ => ?_
    by_cases equal : identityRank entry = identityRank a
    · have sameIdentity := (identity_eq_of_identityRank equal).trans same.symm
      simp [equal, sameIdentity]
    · simp [equal]
  rw [narrow, List.filter_cons_of_pos (by simpa using rank),
    List.filter_cons_of_pos (by simp)] at stable
  exact (List.cons.inj stable).1

namespace ProjectDictionarySnapshot

/-- The lookups are traversals of the stored keys, and the tokens of a key come by priority. -/
structure TraversesKeys (snapshot : ProjectDictionarySnapshot) : Prop where
  exact_ : ∀ callback query calls, snapshot.lookupExact callback query calls
    = traverse callback [] (snapshot.groups fun key => key == query) calls
  predictive : ∀ callback query calls fuel, snapshot.entries.length < fuel →
    snapshot.lookupPredictive fuel callback query calls
      = some (traverse callback [] (snapshot.groups fun key => query.isPrefixOf key) calls)
  prefix_ : ∀ callback query calls, snapshot.lookupPrefix callback query calls
    = traverse callback [] (snapshot.groups fun key => key.isPrefixOf query) calls
  ordered : snapshot.storedKeys.Pairwise (· < ·)
  stored : ∀ key, key ∈ snapshot.storedKeys ↔ ∃ entry ∈ snapshot.entries, entry.token.key = key
  priorities : ∀ key, (snapshot.entriesOf key).Pairwise fun a b => b.priority ≤ a.priority

theorem traversesKeys (snapshot : ProjectDictionarySnapshot) : snapshot.TraversesKeys where
  exact_ := snapshot.lookupExact_eq
  predictive := fun callback query calls _ enough =>
    snapshot.lookupPredictive_eq callback query calls enough
  prefix_ := snapshot.lookupPrefix_eq
  ordered := snapshot.storedKeys_sorted
  stored := fun _ => snapshot.mem_storedKeys
  priorities := snapshot.tokensOf_priority

/-- The lookups of two snapshots make the same calls. -/
structure SameCalls (snapshot other : ProjectDictionarySnapshot) : Prop where
  exact_ : ∀ callback query calls,
    other.lookupExact callback query calls = snapshot.lookupExact callback query calls
  predictive : ∀ callback query calls fuel,
    other.lookupPredictive fuel callback query calls = snapshot.lookupPredictive fuel callback query calls
  prefix_ : ∀ callback query calls,
    other.lookupPrefix callback query calls = snapshot.lookupPrefix callback query calls

theorem sameCalls_of_entries {snapshot other : ProjectDictionarySnapshot}
    (same : other.entries = snapshot.entries) : snapshot.SameCalls other := by
  have range : other.equalRange = snapshot.equalRange := by
    funext key
    rw [equalRange, equalRange, same]
  have predictiveFrom : ∀ callback query fuel iter calls,
      other.lookupPredictiveFrom callback query fuel iter calls
        = snapshot.lookupPredictiveFrom callback query fuel iter calls := by
    intro callback query fuel
    induction fuel with
    | zero => exact fun _ _ => rfl
    | succ fuel ih =>
        intro iter calls
        rw [lookupPredictiveFrom, lookupPredictiveFrom, range]
        simp only [ih]
  have prefixFrom : ∀ callback query lengths calls,
      other.lookupPrefixFrom callback query lengths calls
        = snapshot.lookupPrefixFrom callback query lengths calls := by
    intro callback query lengths
    induction lengths with
    | nil => exact fun _ => rfl
    | cons length lengths ih =>
        intro calls
        rw [lookupPrefixFrom, lookupPrefixFrom, range]
        simp only [ih]
  constructor
  · intro callback query calls
    rw [lookupExact, lookupExact, range]
  · intro callback query calls fuel
    rw [lookupPredictive, lookupPredictive, same, predictiveFrom]
  · intro callback query calls
    exact prefixFrom callback query _ calls

/-- What is to hold of the snapshots that are made from a list of entries, whatever sort function is
used. -/
def Contract (generation : UInt64) (sourceId fingerprint : ByteString)
    (entries : List ProjectDictionaryEntry) (metadata : ProjectDictionaryMetadata) : Prop :=
  ∀ order snapshot, create order generation sourceId fingerprint entries metadata = .ok snapshot →
    OneEach (entries.map ProjectDictionaryEntry.stored) snapshot.entries ∧ snapshot.TraversesKeys ∧
      ∀ others : List ProjectDictionaryEntry, others.Perm entries →
        ∃ other, create order generation sourceId fingerprint others metadata = .ok other ∧
          snapshot.SameCalls other

/-! ## What lookups report to a callback that always continues -/

theorem visitTokens_continue (key : ByteString) (tokens : List Token) (calls : List Call) :
    visitTokens (fun _ => .traverseContinue) key tokens calls
      = (.kContinue, calls ++ tokens.map (Call.onToken key key)) := by
  induction tokens generalizing calls with
  | nil => rw [visitTokens, List.map_nil, List.append_nil]
  | cons token tokens ih =>
      rw [visitTokens]
      dsimp only
      rw [ih, List.map_cons, List.append_assoc, List.singleton_append]

/-- Every entry is reported by the exact lookup of its key. -/
theorem mem_lookupExact {snapshot : ProjectDictionarySnapshot} {key : ByteString} {token : Token} :
    Call.onToken key key token ∈ snapshot.lookupExact (fun _ => .traverseContinue) key [] ↔
      ∃ entry ∈ snapshot.entries, entry.token.key = key ∧ entry.token = token := by
  rw [lookupExact]
  have calls : ∀ entry : StoredEntry, entry ∈ snapshot.entriesOf key ↔
      entry ∈ snapshot.entries ∧ entry.token.key = key := by
    intro entry
    rw [entriesOf, List.mem_filter, decide_eq_true_eq]
  by_cases stored : key ∈ snapshot.storedKeys
  · rw [snapshot.emitKey_stored _ stored, visitKey]
    dsimp only
    rw [visitTokens_continue]
    simp [calls, and_assoc]
  · rw [emitKey, between_equalRange]
    have empty : snapshot.entriesOf key = [] := by
      by_contra nonempty
      exact stored (snapshot.entriesOf_ne_nil.1 nonempty)
    rw [if_pos empty]
    refine iff_of_false List.not_mem_nil ?_
    rintro ⟨entry, member, isKey, _⟩
    exact stored (snapshot.mem_storedKeys.2 ⟨entry, member, isKey⟩)

section Contract

variable {generation : UInt64} {sourceId fingerprint : ByteString}
  {entries : List ProjectDictionaryEntry} {metadata : ProjectDictionaryMetadata}

/-- The stable sort lets any of the best entries be the one that is stored. -/
theorem exists_perm_storing {a : StoredEntry}
    (best : IsBest (entries.map ProjectDictionaryEntry.stored) a) :
    ∃ others : List ProjectDictionaryEntry, others.Perm entries ∧
      ∀ kept ∈ storedEntries (stableSort StoredEntry) (others.map ProjectDictionaryEntry.stored),
        identity kept = identity a → kept = a := by
  obtain ⟨entry, member, rfl⟩ := List.mem_map.1 best.1
  have perm : (entry :: entries.erase entry).Perm entries := (List.perm_cons_erase member).symm
  refine ⟨entry :: entries.erase entry, perm, fun kept stored same => ?_⟩
  exact stableSort_keeps_first (best.perm (perm.map ProjectDictionaryEntry.stored)) stored same

/-- Where the lookups do not depend on the order of the entries, the costs agree. -/
theorem Contract.costsAgree (contract : Contract generation sourceId fingerprint entries metadata)
    {order : SortFunction StoredEntry} {snapshot : ProjectDictionarySnapshot}
    (created : create order generation sourceId fingerprint entries metadata = .ok snapshot) :
    CostsAgree entries := by
  intro a b bestA bestB same
  obtain ⟨stable, isStable⟩ := @create_ok_iff (stableSort StoredEntry) generation sourceId fingerprint
    entries metadata |>.2 (create_ok_iff.1 ⟨snapshot, created⟩)
  obtain ⟨_, _, sameCalls⟩ := contract _ stable isStable
  -- In one order of the entries `a` is stored, in another one `b`.
  obtain ⟨first, permFirst, onlyA⟩ := exists_perm_storing bestA
  obtain ⟨second, permSecond, onlyB⟩ := exists_perm_storing bestB
  obtain ⟨left, createdLeft, callsLeft⟩ := sameCalls first permFirst
  obtain ⟨right, createdRight, callsRight⟩ := sameCalls second permSecond
  have eachLeft := oneEach_storedEntries (stableSort StoredEntry)
    (first.map ProjectDictionaryEntry.stored)
  obtain ⟨kept, stored, isA⟩ := eachLeft.present a
    ((permFirst.map ProjectDictionaryEntry.stored).symm.subset bestA.1)
  obtain rfl := onlyA kept stored isA
  rw [← create_entries createdLeft] at stored
  have called := mem_lookupExact.2 ⟨kept, stored, rfl, rfl⟩
  rw [callsLeft.exact_, ← callsRight.exact_] at called
  obtain ⟨entry, member, _, token⟩ := mem_lookupExact.1 called
  rw [create_entries createdRight] at member
  have identityEntry : identity entry = identity b := by
    rw [identity, token]
    exact same
  rw [← onlyB entry member identityEntry, token]

/-- **A snapshot keeps its contract** exactly if, of the entries with the same key, value, lid and
rid, those of the highest priority with the smallest identifier all have the same cost. -/
theorem contract_iff_costsAgree (order : SortFunction StoredEntry) (snapshot : ProjectDictionarySnapshot)
    (created : create order generation sourceId fingerprint entries metadata = .ok snapshot) :
    Contract generation sourceId fingerprint entries metadata ↔ CostsAgree entries := by
  constructor
  · exact fun contract => contract.costsAgree created
  · intro agree order snapshot created
    refine ⟨?_, snapshot.traversesKeys, fun others perm => ?_⟩
    · rw [create_entries created]
      exact oneEach_storedEntries order _
    · obtain ⟨other, createdOther⟩ := create_perm perm created
      refine ⟨other, createdOther, sameCalls_of_entries ?_⟩
      rw [create_entries created, create_entries createdOther]
      exact storedEntries_perm_eq agree perm order order

/-- An entry for the tests, which differs in its cost only. -/
def entryOfCost (cost : Int) : ProjectDictionaryEntry where
  key := [0x6b]
  value := [0x76]
  cost := cost
  entryId := [0x69]

theorem exists_create_of_valid (order : SortFunction StoredEntry) {entries : List ProjectDictionaryEntry}
    (valid : validateEntries 2 entries = .ok ()) (few : entries.length ≤ kMaxEntryCount) :
    ∃ snapshot, create order 1 [0x73] [0x66] entries {} = .ok snapshot := by
  refine create_ok_iff.2 ⟨2, ?_, valid⟩
  rw [validateHeader, if_neg (by omega)]
  rfl

/-- Four entries to be merged: one of a low priority, two that are the same, and one with a larger
identifier. -/
def mergedEntries : List ProjectDictionaryEntry :=
  [entryOfCost 100, { entryOfCost 200 with priority := 3 },
    { entryOfCost 300 with priority := 3, entryId := [0x6a] },
    { entryOfCost 200 with priority := 3 }]

/-- The four entries keep the contract: one of the two that are the same is kept. -/
theorem contract_mergedEntries : Contract 1 [0x73] [0x66] mergedEntries {} := by
  obtain ⟨snapshot, created⟩ := exists_create_of_valid (stableSort StoredEntry)
    (by rfl : validateEntries 2 mergedEntries = .ok ()) (by decide)
  have onlyBest : ∀ a ∈ mergedEntries.map ProjectDictionaryEntry.stored,
      (∀ other ∈ mergedEntries.map ProjectDictionaryEntry.stored,
        identity a = identity other → Precedes a other) → a.token.cost = 200 := by
    decide
  refine (contract_iff_costsAgree _ snapshot created).2 fun a b bestA bestB _ => ?_
  exact (onlyBest a bestA.1 bestA.2).trans (onlyBest b bestB.1 bestB.2).symm

/-- Two entries with nothing but their costs to tell them apart. -/
theorem not_contract_twoCosts : ¬ Contract 1 [0x73] [0x66] ([100, 200].map entryOfCost) {} := by
  intro contract
  obtain ⟨snapshot, created⟩ := exists_create_of_valid (stableSort StoredEntry)
    (by rfl : validateEntries 2 ([100, 200].map entryOfCost) = .ok ()) (by decide)
  have best : ∀ cost ∈ [100, 200],
      IsBest (([100, 200].map entryOfCost).map ProjectDictionaryEntry.stored) (entryOfCost cost).stored := by
    intro cost member
    refine ⟨List.mem_map_of_mem (List.mem_map_of_mem member), fun other given _ => ?_⟩
    obtain ⟨entry, isEntry, rfl⟩ := List.mem_map.1 given
    obtain ⟨_, _, rfl⟩ := List.mem_map.1 isEntry
    exact .inr ⟨rfl, le_refl _⟩
  have same := contract.costsAgree created (entryOfCost 100).stored (entryOfCost 200).stored
    (best 100 (by decide)) (best 200 (by decide)) rfl
  exact absurd same (by decide)

end Contract

end ProjectDictionarySnapshot

end Mozkey.Dictionary
