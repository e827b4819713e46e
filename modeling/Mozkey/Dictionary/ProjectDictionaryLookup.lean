import Mozkey.Dictionary.ProjectDictionary

/-!
# Lookups in a project dictionary

Each of the three lookups is a traversal of the stored keys that it looks for, in the order of
their bytes: the keys equal to the query, the keys that extend it, and the keys that are a prefix of
it (`lookupExact_eq`, `lookupPredictive_eq`, `lookupPrefix_eq`).  The tokens of a key come in the
order of their priorities (`tokensOf_priority`).
-/

namespace Mozkey.Dictionary

open Mozkey.Lib

namespace ProjectDictionarySnapshot

variable (snapshot : ProjectDictionarySnapshot)

/-! ## The keys of a snapshot -/

/-- The keys that are stored, each once. -/
def storedKeys : List ByteString :=
  (snapshot.entries.map fun entry => entry.token.key).destutter (· ≠ ·)

/-- The entries of a key. -/
def entriesOf (key : ByteString) : List StoredEntry :=
  snapshot.entries.filter fun entry => entry.token.key = key

/-- The stored keys with a property, with their tokens. -/
def groups (p : ByteString → Bool) : List (ByteString × List Token) :=
  (snapshot.storedKeys.filter p).map fun key => (key, (snapshot.entriesOf key).map StoredEntry.token)

theorem sorted : snapshot.entries.Pairwise fun a b => a.token.key ≤ b.token.key :=
  snapshot.ordered.imp key_le_of_lookupRank

/-- The keys are in the order of their bytes. -/
theorem storedKeys_sorted : snapshot.storedKeys.Pairwise (· < ·) := by
  have keys : (snapshot.entries.map fun entry => entry.token.key).Pairwise fun a b => id a ≤ id b :=
    List.pairwise_map.2 snapshot.sorted
  have strict := pairwise_lt_destutter keys
  exact strict

theorem mem_storedKeys {key : ByteString} :
    key ∈ snapshot.storedKeys ↔ ∃ entry ∈ snapshot.entries, entry.token.key = key := by
  constructor
  · intro member
    exact List.mem_map.1 ((List.destutter_sublist _ _).subset member)
  · rintro ⟨entry, member, rfl⟩
    have present := List.mem_map_of_mem (f := fun entry : StoredEntry => entry.token.key) member
    obtain ⟨key, kept, same⟩ := @exists_mem_destutter _ _ _ id _ _ present
    have equal : key = entry.token.key := same
    exact equal ▸ kept

theorem entriesOf_ne_nil {key : ByteString} :
    snapshot.entriesOf key ≠ [] ↔ key ∈ snapshot.storedKeys := by
  rw [mem_storedKeys, entriesOf, Ne, List.filter_eq_nil_iff]
  simp

/-- **The tokens of a key** come with the highest priority first. -/
theorem tokensOf_priority (key : ByteString) :
    (snapshot.entriesOf key).Pairwise fun a b => b.priority ≤ a.priority := by
  have ordered := snapshot.ordered.filter fun entry => entry.token.key = key
  refine ordered.imp_of_mem fun {a b} memberA memberB before => ?_
  have keyA : a.token.key = key := of_decide_eq_true (List.mem_filter.1 memberA).2
  have keyB : b.token.key = key := of_decide_eq_true (List.mem_filter.1 memberB).2
  rcases Prod.Lex.toLex_le_toLex.1 before with less | ⟨_, rest⟩
  · exact absurd (keyA.trans keyB.symm) less.ne
  · rw [UInt8.le_iff_toNat_le]
    rcases Prod.Lex.toLex_le_toLex.1 rest with less | ⟨same, _⟩
    · omega
    · omega

theorem groups_congr {p q : ByteString → Bool} (same : ∀ key ∈ snapshot.storedKeys, p key = q key) :
    snapshot.groups p = snapshot.groups q := by
  rw [groups, groups, List.filter_congr same]

theorem groups_eq_nil {p : ByteString → Bool} (none : ∀ key ∈ snapshot.storedKeys, p key = false) :
    snapshot.groups p = [] := by
  rw [groups, List.map_eq_nil_iff, List.filter_eq_nil_iff]
  intro key member
  rw [none key member]
  exact Bool.false_ne_true

/-- The least of the keys with a property comes first. -/
theorem groups_eq_cons {p : ByteString → Bool} {key : ByteString} (stored : key ∈ snapshot.storedKeys)
    (here : p key = true) (least : ∀ k ∈ snapshot.storedKeys, p k = true → key ≤ k) :
    snapshot.groups p = (key, (snapshot.entriesOf key).map StoredEntry.token) ::
      snapshot.groups fun k => p k && decide (key < k) := by
  have keys : snapshot.storedKeys.filter p
      = key :: snapshot.storedKeys.filter fun k => p k && decide (key < k) := by
    refine eq_of_pairwise_lt (snapshot.storedKeys_sorted.filter _)
      (List.pairwise_cons.2 ⟨?_, snapshot.storedKeys_sorted.filter _⟩) fun k => ?_
    · intro k member
      have both := (List.mem_filter.1 member).2
      rw [Bool.and_eq_true] at both
      exact of_decide_eq_true both.2
    · rw [List.mem_cons, List.mem_filter, List.mem_filter, Bool.and_eq_true, decide_eq_true_eq]
      constructor
      · rintro ⟨isStored, has⟩
        rcases (least k isStored has).eq_or_lt with same | less
        · exact .inl same.symm
        · exact .inr ⟨isStored, has, less⟩
      · rintro (rfl | ⟨isStored, has, _⟩)
        · exact ⟨stored, here⟩
        · exact ⟨isStored, has⟩
  rw [groups, keys, List.map_cons, groups]

/-! ## The range of a key -/

theorem between_equalRange (key : ByteString) :
    between (snapshot.equalRange key).1 (snapshot.equalRange key).2 = snapshot.entriesOf key :=
  between_bounds snapshot.sorted key

theorem equalRange_snd (key : ByteString) :
    (snapshot.equalRange key).2 = snapshot.entries.filter fun entry => key < entry.token.key := by
  rw [equalRange]
  dsimp only
  rw [lowerBound_eq snapshot.sorted, upperBound_eq (snapshot.sorted.filter _), List.filter_filter]
  refine List.filter_congr fun entry _ => ?_
  by_cases above : key < entry.token.key
  · simp [above, above.le]
  · simp [above]

theorem keyAt_equalRange {key : ByteString} (stored : key ∈ snapshot.storedKeys) :
    keyAt (snapshot.equalRange key).1 = key := by
  have nonempty := snapshot.entriesOf_ne_nil.2 stored
  rw [equalRange]
  dsimp only
  rw [lowerBound_eq snapshot.sorted, filter_le_eq_append snapshot.sorted]
  change keyAt (snapshot.entriesOf key ++ _) = key
  cases first : snapshot.entriesOf key with
  | nil => exact absurd first nonempty
  | cons entry rest =>
      have member : entry ∈ snapshot.entriesOf key := first ▸ List.mem_cons_self ..
      exact of_decide_eq_true (List.mem_filter.1 member).2

/-- Emitting a stored key visits it with its tokens. -/
theorem emitKey_stored (callback : Callback) {key : ByteString} (stored : key ∈ snapshot.storedKeys)
    (calls : List Call) :
    emitKey callback (snapshot.equalRange key) calls
      = visitKey callback key ((snapshot.entriesOf key).map StoredEntry.token) calls := by
  rw [emitKey, between_equalRange, if_neg (snapshot.entriesOf_ne_nil.2 stored),
    snapshot.keyAt_equalRange stored]

/-! ## The exact lookup -/

/-- **The exact lookup** traverses the key that is equal to the query. -/
theorem lookupExact_eq (callback : Callback) (key : ByteString) (calls : List Call) :
    snapshot.lookupExact callback key calls
      = traverse callback [] (snapshot.groups fun k => k == key) calls := by
  rw [lookupExact]
  by_cases stored : key ∈ snapshot.storedKeys
  · have one : snapshot.groups (fun k => k == key)
        = [(key, (snapshot.entriesOf key).map StoredEntry.token)] := by
      rw [snapshot.groups_eq_cons (p := fun k => k == key) stored (beq_self_eq_true key)
        fun k _ same => (eq_of_beq same).ge, snapshot.groups_eq_nil]
      intro k _
      by_cases same : k = key
      · simp [same]
      · simp [same]
    rw [one, snapshot.emitKey_stored callback stored, traverse, isCulled, List.any_nil,
      if_neg Bool.false_ne_true]
    cases visitKey callback key ((snapshot.entriesOf key).map StoredEntry.token) calls with
    | mk outcome next => cases outcome <;> rfl
  · have none : snapshot.groups (fun k => k == key) = [] := by
      refine snapshot.groups_eq_nil fun k isStored => ?_
      have different : k ≠ key := fun same => stored (same ▸ isStored)
      simpa using different
    have empty : snapshot.entriesOf key = [] := by
      by_contra nonempty
      exact stored (snapshot.entriesOf_ne_nil.1 nonempty)
    rw [none, emitKey, between_equalRange, if_pos empty, traverse]

/-! ## The predictive lookup -/

theorem groups_filter (p q : ByteString → Bool) :
    (snapshot.groups p).filter (fun group => q group.1) = snapshot.groups fun k => p k && q k := by
  rw [groups, groups, List.filter_map, List.filter_filter]
  refine congrArg _ (List.filter_congr fun k _ => ?_)
  exact Bool.and_comm _ _

/-- The keys behind a key, without those that extend it. -/
theorem dropWhile_culled (key : ByteString) :
    (snapshot.equalRange key).2.dropWhile (fun entry => key.isPrefixOf entry.token.key)
      = snapshot.entries.filter fun entry =>
          decide (key < entry.token.key) && !key.isPrefixOf entry.token.key := by
  rw [equalRange_snd, dropWhile_eq_filter, List.filter_filter]
  · refine List.filter_congr fun entry _ => ?_
    exact Bool.and_comm _ _
  · refine (snapshot.sorted.filter _).imp_of_mem fun {a b} memberA _ order front => ?_
    have above : key < a.token.key := of_decide_eq_true (List.mem_filter.1 memberA).2
    exact List.isPrefixOf_iff_prefix.2
      (isPrefix_of_le_of_le (List.isPrefixOf_iff_prefix.1 front) above.le order)

variable {snapshot}

/-- The first entry with a property that is kept upwards has the least of the keys with it. -/
theorem least_of_filter_eq_cons {p : ByteString → Bool} {entry : StoredEntry} {rest : List StoredEntry}
    (ahead : (snapshot.entries.filter fun entry => p entry.token.key) = entry :: rest) :
    entry.token.key ∈ snapshot.storedKeys ∧ p entry.token.key = true ∧
      ∀ k ∈ snapshot.storedKeys, p k = true → entry.token.key ≤ k := by
  have first : entry ∈ snapshot.entries.filter fun entry => p entry.token.key :=
    ahead ▸ List.mem_cons_self ..
  obtain ⟨inside, has⟩ := List.mem_filter.1 first
  refine ⟨snapshot.mem_storedKeys.2 ⟨entry, inside, rfl⟩, has, fun k isStored hasK => ?_⟩
  obtain ⟨other, member, rfl⟩ := snapshot.mem_storedKeys.1 isStored
  have among : other ∈ entry :: rest := ahead ▸ List.mem_filter.2 ⟨member, hasK⟩
  rcases List.mem_cons.1 among with rfl | later
  · exact le_refl _
  · have ordered := snapshot.sorted.filter fun entry => p entry.token.key
    rw [ahead] at ordered
    exact (List.pairwise_cons.1 ordered).1 other later

/-- Behind the first entry, fewer entries are left. -/
theorem length_filter_behind {p r : ByteString → Bool} {entry : StoredEntry} {rest : List StoredEntry}
    (up : ∀ a b, p a = true → a ≤ b → p b = true)
    (ahead : (snapshot.entries.filter fun entry => p entry.token.key) = entry :: rest)
    (behind : ∀ k, r k = true → entry.token.key < k) :
    (snapshot.entries.filter fun entry => r entry.token.key).length < (entry :: rest).length := by
  obtain ⟨_, has, _⟩ := least_of_filter_eq_cons ahead
  have smaller : (snapshot.entries.filter fun entry => r entry.token.key)
      = (entry :: rest).filter fun entry => r entry.token.key := by
    rw [← ahead, List.filter_filter]
    refine List.filter_congr fun other _ => ?_
    cases there : r other.token.key with
    | false => rfl
    | true => exact (up _ _ has (behind _ there).le).symm
  have out : ¬ r entry.token.key = true := fun there => absurd (behind _ there) (lt_irrefl _)
  rw [smaller]
  exact List.length_filter_lt_length_iff_exists.2 ⟨entry, List.mem_cons_self .., out⟩

variable (snapshot)

/-- **The loop of the predictive lookup**, from an iterator behind which the keys have a property
that all greater keys have. -/
theorem lookupPredictiveFrom_eq (callback : Callback) (query : ByteString) (fuel : Nat)
    (p : ByteString → Bool) (up : ∀ a b, p a = true → a ≤ b → p b = true)
    (above : ∀ a, p a = true → query ≤ a) (calls : List Call)
    (enough : (snapshot.entries.filter fun entry => p entry.token.key).length < fuel) :
    snapshot.lookupPredictiveFrom callback query fuel
        (snapshot.entries.filter fun entry => p entry.token.key) calls
      = some (traverse callback [] (snapshot.groups fun k => p k && query.isPrefixOf k) calls) := by
  induction fuel generalizing p calls with
  | zero => exact absurd enough (Nat.not_lt_zero _)
  | succ fuel ih =>
      rw [lookupPredictiveFrom]
      cases ahead : snapshot.entries.filter fun entry => p entry.token.key with
      | nil =>
          have none : ∀ k ∈ snapshot.storedKeys, (p k && query.isPrefixOf k) = false := by
            intro k stored
            obtain ⟨entry, member, rfl⟩ := snapshot.mem_storedKeys.1 stored
            rw [Bool.eq_false_of_not_eq_true (List.filter_eq_nil_iff.1 ahead entry member)]
            rfl
          rw [if_neg fun both => both.1 rfl, snapshot.groups_eq_nil none]
          rfl
      | cons entry rest =>
          obtain ⟨stored, has, least⟩ := least_of_filter_eq_cons ahead
          rw [ahead] at enough
          by_cases front : query <+: entry.token.key
          · rw [if_pos ⟨List.cons_ne_nil _ _, front⟩, keyAt]
            dsimp only
            rw [snapshot.emitKey_stored callback stored, snapshot.keyAt_equalRange stored,
              snapshot.groups_eq_cons stored
                (p := fun k => p k && query.isPrefixOf k)
                (by rw [has, List.isPrefixOf_iff_prefix.2 front]; rfl)
                fun k isStored both => least k isStored (Bool.and_eq_true_iff.1 both).1,
              traverse, isCulled, List.any_nil, if_neg Bool.false_ne_true]
            -- Both ways to go on leave only keys behind the key.
            have fewer := fun (r : ByteString → Bool) behind =>
              (@length_filter_behind _ _ r _ _ up ahead behind).trans_le (Nat.le_of_lt_succ enough)
            cases visitKey callback entry.token.key
                ((snapshot.entriesOf entry.token.key).map StoredEntry.token) calls with
            | mk outcome next =>
                cases outcome with
                | kDone => rfl
                | kContinue =>
                    dsimp only
                    rw [equalRange_snd, ih (fun k => decide (entry.token.key < k))]
                    · refine congrArg some ?_
                      rw [snapshot.groups_congr fun k _ => ?_]
                      by_cases behind : entry.token.key < k
                      · simp [behind, up _ _ has behind.le]
                      · simp [behind]
                    · exact fun a b aboveA order =>
                        decide_eq_true ((of_decide_eq_true aboveA).trans_le order)
                    · exact fun a aboveA => (above _ has).trans (of_decide_eq_true aboveA).le
                    · exact fewer (fun k => decide (entry.token.key < k)) fun k => of_decide_eq_true
                | kCull =>
                    dsimp only
                    rw [dropWhile_culled,
                      ih (fun k => decide (entry.token.key < k) && !entry.token.key.isPrefixOf k)]
                    · refine congrArg some ?_
                      rw [traverse_one,
                        snapshot.groups_filter _ fun k => !entry.token.key.isPrefixOf k,
                        snapshot.groups_congr fun k _ => ?_]
                      by_cases behind : entry.token.key < k
                      · simp [behind, up _ _ has behind.le, Bool.and_comm]
                      · simp [behind]
                    · intro a b both order
                      rw [Bool.and_eq_true, Bool.not_eq_true'] at both ⊢
                      have aboveA := of_decide_eq_true both.1
                      refine ⟨decide_eq_true (aboveA.trans_le order), ?_⟩
                      refine Bool.eq_false_of_not_eq_true fun frontB => ?_
                      have frontA := List.isPrefixOf_iff_prefix.2
                        (isPrefix_of_le_of_le (List.isPrefixOf_iff_prefix.1 frontB) aboveA.le order)
                      exact absurd (frontA.symm.trans both.2) (by simp)
                    · intro a both
                      rw [Bool.and_eq_true] at both
                      exact (above _ has).trans (of_decide_eq_true both.1).le
                    · exact fewer (fun k => decide (entry.token.key < k) && !entry.token.key.isPrefixOf k)
                        fun k both => of_decide_eq_true (Bool.and_eq_true_iff.1 both).1
          · have none : ∀ k ∈ snapshot.storedKeys, (p k && query.isPrefixOf k) = false := by
              intro k isStored
              refine Bool.eq_false_of_not_eq_true fun both => front ?_
              rw [Bool.and_eq_true, List.isPrefixOf_iff_prefix] at both
              exact isPrefix_of_le_of_le both.2 (above _ has) (least k isStored both.1)
            rw [if_neg fun both => front both.2, snapshot.groups_eq_nil none]
            rfl

/-- **The predictive lookup** traverses the keys that extend the query. -/
theorem lookupPredictive_eq (callback : Callback) (query : ByteString) (calls : List Call) {fuel : Nat}
    (enough : snapshot.entries.length < fuel) :
    snapshot.lookupPredictive fuel callback query calls
      = some (traverse callback [] (snapshot.groups fun k => query.isPrefixOf k) calls) := by
  rw [lookupPredictive, lowerBound_eq snapshot.sorted,
    snapshot.lookupPredictiveFrom_eq callback query fuel (fun k => decide (query ≤ k))]
  · refine congrArg some ?_
    rw [snapshot.groups_congr fun k _ => ?_]
    cases front : query.isPrefixOf k with
    | false => exact Bool.and_false _
    | true =>
        rw [decide_eq_true (le_of_isPrefix (List.isPrefixOf_iff_prefix.1 front))]
        rfl
  · exact fun a b aboveA order => decide_eq_true ((of_decide_eq_true aboveA).trans order)
  · exact fun a => of_decide_eq_true
  · exact (List.length_filter_le _ _).trans_lt enough

/-! ## The prefix lookup -/

/-- Of the prefixes of a list, those from a length on. -/
theorem take_lt_iff {query k : ByteString} {length : Nat} (front : k <+: query)
    (long : length ≤ k.length) : query.take length < k ↔ length < k.length := by
  have within : query.take length <+: k :=
    List.prefix_of_prefix_length_le (List.take_prefix _ _) front
      ((List.length_take_le _ _).trans long)
  have size : (query.take length).length = length :=
    List.length_take_of_le (long.trans front.length_le)
  constructor
  · intro less
    refine lt_of_le_of_ne long fun same => less.ne ?_
    exact within.eq_of_length (size.trans same)
  · intro less
    refine lt_of_le_of_ne (le_of_isPrefix within) fun same => ?_
    rw [← same, size] at less
    exact lt_irrefl _ less

/-- **The loop of the prefix lookup**, from a length on. -/
theorem lookupPrefixFrom_eq (callback : Callback) (query : ByteString) (count length : Nat)
    (total : length + count = query.length + 1) (calls : List Call) :
    snapshot.lookupPrefixFrom callback query (List.range' length count) calls
      = traverse callback []
          (snapshot.groups fun k => k.isPrefixOf query && decide (length ≤ k.length)) calls := by
  induction count generalizing length calls with
  | zero =>
      rw [snapshot.groups_eq_nil]
      · rfl
      · intro k _
        refine Bool.eq_false_of_not_eq_true fun both => ?_
        rw [Bool.and_eq_true, List.isPrefixOf_iff_prefix, decide_eq_true_eq] at both
        have short := both.1.length_le
        omega
  | succ count ih =>
      have next := fun calls => ih (length + 1) (by omega) calls
      rw [List.range'_succ, lookupPrefixFrom, between_equalRange]
      have size : (query.take length).length = length := List.length_take_of_le (by omega)
      by_cases stored : query.take length ∈ snapshot.storedKeys
      · have here : ((query.take length).isPrefixOf query
            && decide (length ≤ (query.take length).length)) = true := by
          rw [List.isPrefixOf_iff_prefix.2 (List.take_prefix _ _), size, decide_eq_true (le_refl _)]
          rfl
        have least : ∀ k ∈ snapshot.storedKeys,
            (k.isPrefixOf query && decide (length ≤ k.length)) = true → query.take length ≤ k := by
          intro k _ both
          rw [Bool.and_eq_true, List.isPrefixOf_iff_prefix, decide_eq_true_eq] at both
          exact le_of_isPrefix (List.prefix_of_prefix_length_le (List.take_prefix _ _) both.1
            (size.le.trans both.2))
        have behind : snapshot.groups (fun k =>
              (k.isPrefixOf query && decide (length ≤ k.length)) && decide (query.take length < k))
            = snapshot.groups fun k => k.isPrefixOf query && decide (length + 1 ≤ k.length) := by
          refine snapshot.groups_congr fun k _ => ?_
          cases front : k.isPrefixOf query with
          | false => rfl
          | true =>
              by_cases long : length ≤ k.length
              · have less := take_lt_iff (List.isPrefixOf_iff_prefix.1 front) long
                simp [long, less]
              · have short : ¬ length + 1 ≤ k.length := by omega
                simp [long, short]
        rw [if_pos (snapshot.entriesOf_ne_nil.2 stored), snapshot.emitKey_stored callback stored,
          snapshot.groups_eq_cons stored here least, behind, traverse, isCulled, List.any_nil,
          if_neg Bool.false_ne_true]
        cases visitKey callback (query.take length)
            ((snapshot.entriesOf (query.take length)).map StoredEntry.token) calls with
        | mk outcome after =>
            cases outcome with
            | kDone => rfl
            | kContinue => exact next after
            | kCull =>
                refine (traverse_culled callback _ _ after fun group member => ?_).symm
                obtain ⟨k, isStored, rfl⟩ := List.mem_map.1 member
                have both := (List.mem_filter.1 isStored).2
                rw [Bool.and_eq_true, List.isPrefixOf_iff_prefix, decide_eq_true_eq] at both
                have extends_ : query.take length <+: k :=
                  List.prefix_of_prefix_length_le (List.take_prefix _ _) both.1
                    (size.le.trans (Nat.le_of_succ_le both.2))
                rw [isCulled, List.any_cons, List.isPrefixOf_iff_prefix.2 extends_, Bool.true_or]
      · have empty : ¬ snapshot.entriesOf (query.take length) ≠ [] :=
          fun nonempty => stored (snapshot.entriesOf_ne_nil.1 nonempty)
        rw [if_neg empty, next]
        rw [snapshot.groups_congr fun k isStored => ?_]
        cases front : k.isPrefixOf query with
        | false => rfl
        | true =>
            have different : k.length ≠ length := by
              intro same
              refine stored ?_
              rw [← same, ← List.prefix_iff_eq_take.1 (List.isPrefixOf_iff_prefix.1 front)]
              exact isStored
            have iff : length + 1 ≤ k.length ↔ length ≤ k.length := by omega
            simp [iff]

/-- **The prefix lookup** traverses the keys that are a prefix of the query. -/
theorem lookupPrefix_eq (callback : Callback) (query : ByteString) (calls : List Call) :
    snapshot.lookupPrefix callback query calls
      = traverse callback [] (snapshot.groups fun k => k.isPrefixOf query) calls := by
  rw [lookupPrefix, snapshot.lookupPrefixFrom_eq callback query _ 1 (Nat.add_comm _ _)]
  rw [snapshot.groups_congr fun k stored => ?_]
  obtain ⟨entry, member, rfl⟩ := snapshot.mem_storedKeys.1 stored
  have positive := List.length_pos_iff.2 (snapshot.nonempty entry member)
  rw [decide_eq_true (Nat.succ_le_iff.2 positive), Bool.and_true]

end ProjectDictionarySnapshot

end Mozkey.Dictionary
