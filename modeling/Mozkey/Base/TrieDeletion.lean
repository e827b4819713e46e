import Mozkey.Base.LongestMatch

/-!
# Deletion from a trie

`Trie::DeleteEntry` erases a subtrie as soon as nothing is behind it, whether or not the node in
front holds data itself.  What it keeps is said here for tries without barren subtries: behind
every character some entry is found.  Adding and deleting keep tries so.
-/

namespace Mozkey.Trie

variable {κ α : Type} [DecidableEq κ]

/-- `Trie::DeleteEntry`: what is left, and whether the node in front is to erase it. -/
def deleteEntry : List κ → Trie κ α → Trie κ α × Bool
  | [], t => if t.subTries.isEmpty then (t, true) else (node none t.subTries, false)
  | c :: rest, t =>
      match t.findSubTrie c with
      | none => (t, false)
      | some sub =>
          let others := t.subTries.filter fun other => other.1 ≠ c
          let left := deleteEntry rest sub
          if left.2 then (node t.data others, others.isEmpty)
          else (node t.data ((c, left.1) :: others), false)

mutual

/-- `Trie::LookUpPredictiveAll` with the empty key. -/
def all : Trie κ α → List α
  | node data subTries => data.toList ++ allOf subTries

def allOf : List (κ × Trie κ α) → List α
  | [] => []
  | (_, sub) :: others => all sub ++ allOf others

end

/-- `Trie::LookUpPredictiveAll`. -/
def lookUpPredictiveAll : Trie κ α → List κ → List α
  | t, [] => t.all
  | t, c :: rest =>
      match t.findSubTrie c with
      | none => []
      | some sub => sub.lookUpPredictiveAll rest

/-! ## Tries without barren subtries -/

/-- Some entry is found. -/
def Inhabited (t : Trie κ α) : Prop := ∃ key, (t.lookUp key).isSome

/-- Every character leads to one subtrie, and every subtrie holds an entry. -/
inductive Pruned : Trie κ α → Prop
  | intro {t : Trie κ α} (distinct : (t.subTries.map Prod.fst).Nodup)
      (inhabited : ∀ pair ∈ t.subTries, Inhabited pair.2)
      (below : ∀ pair ∈ t.subTries, Pruned pair.2) : Pruned t

variable {t sub : Trie κ α} {c d : κ} {rest looked key : List κ}

theorem lookUp_cons (t : Trie κ α) (c : κ) (rest : List κ) :
    t.lookUp (c :: rest) = (t.findSubTrie c).bind fun sub => sub.lookUp rest := by
  rw [lookUp]
  cases t.findSubTrie c <;> rfl

theorem findSubTrie_filter (data : Option α) (t : Trie κ α) (c d : κ) :
    (node data (t.subTries.filter fun other => other.1 ≠ c)).findSubTrie d =
      if d = c then none else t.findSubTrie d := by
  unfold findSubTrie
  split
  · next same =>
    subst same
    rw [List.lookup_eq_none_iff]
    intro pair member
    have other : pair.1 ≠ d := by simpa using (List.mem_filter.1 member).2
    exact bne_iff_ne.2 other.symm
  · next other => exact lookup_filter_ne other t.subTries

theorem findSubTrie_replace (data : Option α) (t sub : Trie κ α) (c d : κ) :
    (node data ((c, sub) :: t.subTries.filter fun other => other.1 ≠ c)).findSubTrie d =
      if d = c then some sub else t.findSubTrie d := by
  show List.lookup d ((c, sub) :: t.subTries.filter fun other => other.1 ≠ c) = _
  rw [List.lookup_cons]
  by_cases same : d = c
  · rw [if_pos same, same, beq_self_eq_true]
  · rw [if_neg same, beq_false_of_ne same]
    exact lookup_filter_ne same t.subTries

theorem mem_of_findSubTrie (next : t.findSubTrie c = some sub) : (c, sub) ∈ t.subTries := by
  obtain ⟨front, behind, is, -⟩ := List.lookup_eq_some_iff.1 next
  rw [is]
  exact List.mem_append_right _ List.mem_cons_self

theorem Pruned.behind (pruned : Pruned t) (next : t.findSubTrie c = some sub) :
    Inhabited sub ∧ Pruned sub := by
  obtain ⟨-, inhabited, below⟩ := pruned
  exact ⟨inhabited _ (mem_of_findSubTrie next), below _ (mem_of_findSubTrie next)⟩

theorem Pruned.find (pruned : Pruned t) (member : (c, sub) ∈ t.subTries) :
    t.findSubTrie c = some sub := by
  obtain ⟨distinct, -, -⟩ := pruned
  unfold findSubTrie
  generalize t.subTries = pairs at distinct member
  induction pairs with
  | nil => exact absurd member List.not_mem_nil
  | cons pair pairs ih =>
      rw [List.map_cons, List.nodup_cons] at distinct
      rw [List.lookup_cons]
      rcases List.mem_cons.1 member with rfl | later
      · rw [beq_self_eq_true]
      · have other : c ≠ pair.1 := by
          rintro rfl
          exact distinct.1 (List.mem_map.2 ⟨_, later, rfl⟩)
        rw [beq_false_of_ne other]
        exact ih distinct.2 later

theorem pruned_empty : Pruned (empty : Trie κ α) :=
  .intro List.nodup_nil (by simp [empty, subTries]) (by simp [empty, subTries])

/-- A node with a subtrie holds an entry. -/
theorem Pruned.inhabited (pruned : Pruned t) (some_ : t.subTries ≠ []) : Inhabited t := by
  obtain ⟨⟨c, sub⟩, member⟩ := List.exists_mem_of_ne_nil _ some_
  have next := pruned.find member
  obtain ⟨key, found⟩ := (pruned.behind next).1
  refine ⟨c :: key, ?_⟩
  rw [lookUp_cons, next]
  exact found

/-- Subtries are taken away. -/
theorem Pruned.filter (pruned : Pruned t) (data : Option α) (p : κ × Trie κ α → Bool) :
    Pruned (node data (t.subTries.filter p)) := by
  obtain ⟨distinct, inhabited, below⟩ := pruned
  refine .intro ?_ ?_ ?_
  · exact distinct.sublist (List.filter_sublist.map _)
  · exact fun pair member => inhabited pair (List.mem_filter.1 member).1
  · exact fun pair member => below pair (List.mem_filter.1 member).1

/-- A subtrie is put in the place of the one behind a character. -/
theorem Pruned.replace (pruned : Pruned t) (data : Option α) (c : κ) (held : Inhabited sub)
    (prunedSub : Pruned sub) :
    Pruned (node data ((c, sub) :: t.subTries.filter fun other => other.1 ≠ c)) := by
  obtain ⟨distinct, inhabited, below⟩ := pruned.filter data fun other => other.1 ≠ c
  refine .intro ?_ ?_ ?_
  · refine List.nodup_cons.2 ⟨?_, distinct⟩
    intro again
    obtain ⟨pair, member, same⟩ := List.mem_map.1 again
    exact absurd same (by simpa using (List.mem_filter.1 member).2)
  · intro pair member
    rcases List.mem_cons.1 member with rfl | other
    · exact held
    · exact inhabited pair other
  · intro pair member
    rcases List.mem_cons.1 member with rfl | other
    · exact prunedSub
    · exact below pair other

theorem Pruned.addEntry (pruned : Pruned t) (key : List κ) (a : α) : Pruned (t.addEntry key a) := by
  induction key generalizing t with
  | nil =>
      obtain ⟨distinct, inhabited, below⟩ := pruned
      exact .intro distinct inhabited below
  | cons c rest ih =>
      rw [Trie.addEntry]
      refine pruned.replace t.data c ⟨rest, ?_⟩ (ih ?_)
      · rw [lookUp_addEntry, if_pos rfl]
        rfl
      · cases next : t.findSubTrie c with
        | none => exact pruned_empty
        | some sub => exact (pruned.behind next).2

/-- What deletion leaves in place has no barren subtries and is not barren. -/
theorem Pruned.deleteEntry_kept (pruned : Pruned t) (held : Inhabited t)
    (kept : (t.deleteEntry key).2 = false) :
    Inhabited (t.deleteEntry key).1 ∧ Pruned (t.deleteEntry key).1 := by
  induction key generalizing t with
  | nil =>
      rw [Trie.deleteEntry] at kept ⊢
      split at kept
      · cases kept
      · next some_ =>
        rw [if_neg some_]
        have left : Pruned (node none t.subTries) := by
          obtain ⟨distinct, inhabited, below⟩ := pruned
          exact .intro distinct inhabited below
        refine ⟨left.inhabited ?_, left⟩
        exact fun none => some_ (List.isEmpty_iff.2 none)
  | cons c rest ih =>
      rw [Trie.deleteEntry] at kept ⊢
      cases next : t.findSubTrie c with
      | none => exact ⟨held, pruned⟩
      | some sub =>
          simp only [next] at kept ⊢
          have below := pruned.behind next
          split at kept
          · next erases =>
            rw [if_pos erases]
            have left := pruned.filter t.data fun other => other.1 ≠ c
            refine ⟨left.inhabited fun none_ => ?_, left⟩
            exact absurd (List.isEmpty_iff.2 none_) (Bool.not_eq_true _ ▸ kept)
          · next keeps =>
            rw [if_neg keeps]
            have deeper := ih below.2 below.1 (Bool.not_eq_true _ ▸ keeps)
            have left := pruned.replace t.data c deeper.1 deeper.2
            exact ⟨left.inhabited (List.cons_ne_nil _ _), left⟩

theorem Pruned.deleteEntry (pruned : Pruned t) (key : List κ) : Pruned (t.deleteEntry key).1 := by
  cases key with
  | nil =>
      rw [Trie.deleteEntry]
      split
      · exact pruned
      · obtain ⟨distinct, inhabited, below⟩ := pruned
        exact .intro distinct inhabited below
  | cons c rest =>
      rw [Trie.deleteEntry]
      cases next : t.findSubTrie c with
      | none => exact pruned
      | some sub =>
          have below := pruned.behind next
          dsimp only
          split
          · exact pruned.filter _ _
          · next keeps =>
            have deeper := below.2.deleteEntry_kept below.1 (Bool.not_eq_true _ ▸ keeps)
            exact pruned.replace _ c deeper.1 deeper.2

/-! ## What deletion leaves -/

/-- An entry that is not the only one behind any entry that its key goes on from. -/
def Spared (t : Trie κ α) (key : List κ) : Prop :=
  (t.lookUp key).isSome → ∀ front, front <+: key → front ≠ key → (t.lookUp front).isSome →
    ∃ other, front <+: other ∧ other ≠ front ∧ other ≠ key ∧ (t.lookUp other).isSome

/-- The deletion of a key from a subtrie: nothing else is lost, also when it is erased. -/
structure Deletes (t : Trie κ α) (key : List κ) : Prop where
  kept : (t.deleteEntry key).2 = false → ∀ looked,
    (t.deleteEntry key).1.lookUp looked = if looked = key then none else t.lookUp looked
  erased : (t.deleteEntry key).2 = true → ∀ looked, looked ≠ key → t.lookUp looked = none

theorem lookUp_of_isEmpty (none_ : t.subTries.isEmpty = true) (some_ : looked ≠ []) :
    t.lookUp looked = none := by
  cases looked with
  | nil => exact absurd rfl some_
  | cons c rest =>
      rw [lookUp_cons, findSubTrie, List.isEmpty_iff.1 none_]
      rfl

theorem deletes_nil (t : Trie κ α) : Deletes t [] := by
  refine ⟨?_, ?_⟩ <;> rw [deleteEntry] <;> split
  · intro wrong
    cases wrong
  · intro _ looked
    cases looked with
    | nil => rfl
    | cons c rest =>
        rw [if_neg (List.cons_ne_nil _ _), lookUp_cons, lookUp_cons]
        rfl
  · next none_ => exact fun _ looked some_ => lookUp_of_isEmpty none_ some_
  · intro wrong
    cases wrong

/-- In a node whose subtrie deletes rightly, only the key is lost. -/
theorem lookUp_deleteEntry_cons (next : t.findSubTrie c = some sub) (deletes : Deletes sub rest)
    (looked : List κ) :
    (t.deleteEntry (c :: rest)).1.lookUp looked =
      if looked = c :: rest then none else t.lookUp looked := by
  rw [deleteEntry, next]
  dsimp only
  cases looked with
  | nil => split <;> rfl
  | cons d behind =>
      rw [lookUp_cons t]
      split
      · next erases =>
        rw [lookUp_cons, findSubTrie_filter]
        by_cases same : d = c
        · subst same
          rw [if_pos rfl, next]
          by_cases isRest : behind = rest
          · rw [if_pos (congrArg _ isRest)]
            rfl
          · rw [if_neg fun equal => isRest (List.cons.inj equal).2]
            exact (deletes.erased erases behind isRest).symm
        · rw [if_neg same, if_neg fun equal => same (List.cons.inj equal).1]
      · next keeps =>
        rw [lookUp_cons, findSubTrie_replace]
        by_cases same : d = c
        · subst same
          rw [if_pos rfl, next, Option.bind_some, Option.bind_some,
            deletes.kept (Bool.not_eq_true _ ▸ keeps)]
          simp only [List.cons.injEq, true_and]
        · rw [if_neg same, if_neg fun equal => same (List.cons.inj equal).1]

/-- A key that is spared behind a character. -/
theorem spared_behind (next : t.findSubTrie c = some sub)
    (spared : (t.lookUp (c :: rest)).isSome → ∀ front, front ≠ [] → front <+: c :: rest →
      front ≠ c :: rest → (t.lookUp front).isSome →
        ∃ other, front <+: other ∧ other ≠ front ∧ other ≠ c :: rest ∧ (t.lookUp other).isSome) :
    Spared sub rest := by
  have through : ∀ key, sub.lookUp key = t.lookUp (c :: key) := fun key => by
    rw [lookUp_cons, next]
    rfl
  intro found front begins less isFound
  rw [through] at found isFound
  obtain ⟨other, after, ne, neKey, isOther⟩ := spared found (c :: front) (List.cons_ne_nil _ _)
    (List.cons_prefix_cons.2 ⟨rfl, begins⟩) (fun same => less (List.cons.inj same).2) isFound
  obtain ⟨more, rfl⟩ := after
  refine ⟨front ++ more, List.prefix_append _ _, ?_, ?_, ?_⟩
  · exact fun same => ne (congrArg (c :: ·) same)
  · exact fun same => neKey (congrArg (c :: ·) same)
  · rw [through]
    exact isOther

/-- **Deletion from a subtrie** loses nothing else, if the key is spared. -/
theorem Pruned.deletes (pruned : Pruned t) (held : Inhabited t) (spared : Spared t key) :
    Deletes t key := by
  induction key generalizing t with
  | nil => exact deletes_nil t
  | cons c rest ih =>
      cases next : t.findSubTrie c with
      | none =>
          have missing : t.lookUp (c :: rest) = none := by rw [lookUp_cons, next]; rfl
          refine ⟨?_, ?_⟩ <;> rw [Trie.deleteEntry, next]
          · intro _ looked
            dsimp only
            split
            · next same => rw [same, missing]
            · rfl
          · intro wrong
            cases wrong
      | some sub =>
          have below := pruned.behind next
          have through : ∀ key, sub.lookUp key = t.lookUp (c :: key) := fun key => by
            rw [lookUp_cons, next]; rfl
          have deeper : Deletes sub rest :=
            ih below.2 below.1 (spared_behind next fun found front _ => spared found front)
          refine ⟨fun _ => lookUp_deleteEntry_cons next deeper, ?_⟩
          intro erased looked other
          -- Nothing but the node's own data is left, and there is none if the key is spared.
          have rest_ := lookUp_deleteEntry_cons next deeper looked
          rw [if_neg other] at rest_
          have emptied : (sub.deleteEntry rest).2 = true ∧
              (t.subTries.filter fun other => other.1 ≠ c).isEmpty = true := by
            rw [Trie.deleteEntry, next] at erased
            dsimp only at erased
            split at erased
            · next erases => exact ⟨erases, erased⟩
            · cases erased
          have onlyKey : ∀ key, key ≠ [] → key ≠ c :: rest → t.lookUp key = none := by
            intro key some_ other
            have same := lookUp_deleteEntry_cons next deeper key
            rw [if_neg other, Trie.deleteEntry, next] at same
            dsimp only at same
            rw [if_pos emptied.1] at same
            rw [← same]
            exact lookUp_of_isEmpty emptied.2 some_
          by_cases some_ : looked = []
          · subst some_
            by_contra isSome
            obtain ⟨key, found⟩ := below.1
            have isKey : key = rest := by
              by_contra differs
              rw [through, onlyKey _ (List.cons_ne_nil _ _)
                fun same => differs (List.cons.inj same).2] at found
              cases found
            rw [isKey, through] at found
            obtain ⟨other, -, ne, neKey, isOther⟩ := spared found [] List.nil_prefix
              (List.cons_ne_nil _ _).symm (Option.isSome_iff_ne_none.2 isSome)
            rw [onlyKey other ne neKey] at isOther
            cases isOther
          · exact onlyKey looked some_ other

/-- The entry that can be deleted from a whole trie: it is not the only one behind an entry in
front of it, and the entry of the empty key is not the only one at all. -/
def Deletable (t : Trie κ α) (key : List κ) : Prop :=
  (t.lookUp key).isSome →
    (key = [] → ∃ other, other ≠ [] ∧ (t.lookUp other).isSome) ∧
    ∀ front, front ≠ [] → front <+: key → front ≠ key → (t.lookUp front).isSome →
      ∃ other, front <+: other ∧ other ≠ front ∧ other ≠ key ∧ (t.lookUp other).isSome

/-- **Deletion from a trie** loses the key and nothing else. -/
theorem Pruned.lookUp_deleteEntry (pruned : Pruned t) (deletable : Deletable t key)
    (looked : List κ) :
    (t.deleteEntry key).1.lookUp looked = if looked = key then none else t.lookUp looked := by
  cases key with
  | nil =>
      cases left : (t.deleteEntry ([] : List κ)).2 with
      | false => exact (deletes_nil t).kept left looked
      | true =>
          have none_ : t.subTries.isEmpty = true := by
            rw [Trie.deleteEntry] at left
            split at left
            · next none_ => exact none_
            · cases left
          have absent : t.lookUp [] = none := by
            by_contra isSome
            obtain ⟨other, ne, isOther⟩ :=
              (deletable (Option.isSome_iff_ne_none.2 isSome)).1 rfl
            rw [lookUp_of_isEmpty none_ ne] at isOther
            cases isOther
          rw [Trie.deleteEntry, if_pos none_]
          split
          · next same => rw [same]; exact absent
          · rfl
  | cons c rest =>
      cases next : t.findSubTrie c with
      | none =>
          rw [Trie.deleteEntry, next]
          dsimp only
          split
          · next same =>
            rw [same, lookUp_cons, next]
            rfl
          · rfl
      | some sub =>
          have below := pruned.behind next
          have spared := spared_behind next fun found => (deletable found).2
          exact lookUp_deleteEntry_cons next (below.2.deletes below.1 spared) looked

/-! ## What is found in a trie without barren subtries -/

theorem Pruned.hasSubTrie_iff (pruned : Pruned t) (key : List κ) :
    t.hasSubTrie key = true ↔ key ≠ [] ∧ ∃ more, (t.lookUp (key ++ more)).isSome := by
  induction key generalizing t with
  | nil => simp [hasSubTrie]
  | cons c rest ih =>
      rw [hasSubTrie]
      cases next : t.findSubTrie c with
      | none =>
          refine iff_of_false Bool.false_ne_true ?_
          rintro ⟨-, more, found⟩
          rw [List.cons_append, lookUp_cons, next] at found
          cases found
      | some sub =>
          have below := pruned.behind next
          have through : ∀ more, t.lookUp (c :: rest ++ more) = sub.lookUp (rest ++ more) := by
            intro more
            rw [List.cons_append, lookUp_cons, next]
            rfl
          simp only [through, ne_eq, List.cons_ne_nil, not_false_eq_true, true_and, Bool.or_eq_true,
            List.isEmpty_iff, ih below.2]
          constructor
          · rintro (rfl | ⟨-, found⟩)
            · exact below.1
            · exact found
          · intro found
            by_cases none_ : rest = []
            · exact .inl none_
            · exact .inr ⟨none_, found⟩

/-- The longest match is the last of the beginnings of the key that are found. -/
theorem longestMatch_spec (t : Trie κ α) (key : List κ) :
    match t.longestMatch key with
    | none => ∀ front, front <+: key → t.lookUp front = none
    | some (a, n) => n ≤ key.length ∧ t.lookUp (key.take n) = some a ∧
        ∀ front, front <+: key → (t.lookUp front).isSome → front.length ≤ n := by
  by_cases missing : ∀ front, front <+: key → t.lookUp front = none
  · rw [longestMatch_eq_none missing]
    exact missing
  · have longest : ∃ n ≤ key.length, (t.lookUp (key.take n)).isSome ∧
        ∀ front, front <+: key → (t.lookUp front).isSome → front.length ≤ n := by
      let found : Finset Nat :=
        (Finset.range (key.length + 1)).filter fun n => (t.lookUp (key.take n)).isSome
      have mem : ∀ front, front <+: key → (t.lookUp front).isSome → front.length ∈ found := by
        intro front begins isFound
        rw [Finset.mem_filter, Finset.mem_range, ← List.prefix_iff_eq_take.1 begins]
        exact ⟨Nat.lt_succ_of_le begins.length_le, isFound⟩
      push Not at missing
      obtain ⟨front, begins, isFound⟩ := missing
      have some_ : found.Nonempty := ⟨_, mem front begins (Option.isSome_iff_ne_none.2 isFound)⟩
      have last := Finset.mem_filter.1 (found.max'_mem some_)
      exact ⟨found.max' some_, Nat.le_of_lt_succ (Finset.mem_range.1 last.1), last.2,
        fun front begins isFound => found.le_max' _ (mem front begins isFound)⟩
    obtain ⟨n, inside, isFound, last⟩ := longest
    obtain ⟨a, is⟩ := Option.isSome_iff_exists.1 isFound
    have length : (key.take n).length = n := List.length_take_of_le inside
    have longest : ∀ more, more ≠ [] → more <+: key.drop n →
        t.lookUp (key.take n ++ more) = none := by
      intro more some_ begins
      by_contra isFound
      have less := last (key.take n ++ more)
        ((List.prefix_append_right_inj _).2 begins |>.trans (by rw [List.take_append_drop]))
        (Option.isSome_iff_ne_none.2 isFound)
      have positive := List.length_pos_of_ne_nil some_
      rw [List.length_append, length] at less
      omega
    have matched := longestMatch_append is longest
    rw [List.take_append_drop, length] at matched
    rw [matched]
    exact ⟨inside, is, last⟩

mutual

/-- The entries of a trie in the order in which `all` reports their data. -/
def entries : Trie κ α → List (List κ × α)
  | node data subTries => data.toList.map (fun a => ([], a)) ++ entriesOf subTries

def entriesOf : List (κ × Trie κ α) → List (List κ × α)
  | [] => []
  | (c, sub) :: others =>
      (entries sub).map (fun entry => (c :: entry.1, entry.2)) ++ entriesOf others

end

omit [DecidableEq κ] in
mutual

theorem map_snd_entries : (t : Trie κ α) → t.entries.map Prod.snd = t.all
  | node data subTries => by
      rw [entries, all, List.map_append, map_snd_entriesOf subTries, List.map_map]
      congr 1
      exact List.map_id _

theorem map_snd_entriesOf : (subTries : List (κ × Trie κ α)) →
    (entriesOf subTries).map Prod.snd = allOf subTries
  | [] => rfl
  | (c, sub) :: others => by
      rw [entriesOf, allOf, List.map_append, map_snd_entriesOf others, List.map_map,
        ← map_snd_entries sub]
      rfl

end

omit [DecidableEq κ] in
theorem mem_entriesOf {subTries : List (κ × Trie κ α)} {entry : List κ × α} :
    entry ∈ entriesOf subTries ↔
      ∃ c sub rest, (c, sub) ∈ subTries ∧ (rest, entry.2) ∈ sub.entries ∧ entry.1 = c :: rest := by
  induction subTries with
  | nil => simp [entriesOf]
  | cons pair others ih =>
      obtain ⟨c, sub⟩ := pair
      rw [entriesOf, List.mem_append, ih, List.mem_map]
      constructor
      · rintro (⟨inner, member, rfl⟩ | ⟨d, other, rest, member, inside, is⟩)
        · exact ⟨c, sub, inner.1, List.mem_cons_self, member, rfl⟩
        · exact ⟨d, other, rest, List.mem_cons_of_mem _ member, inside, is⟩
      · rintro ⟨d, other, rest, member, inside, is⟩
        rcases List.mem_cons.1 member with same | later
        · obtain ⟨rfl, rfl⟩ := Prod.mk.inj same
          exact .inl ⟨(rest, entry.2), inside, Prod.ext is.symm rfl⟩
        · exact .inr ⟨d, other, rest, later, inside, is⟩

omit [DecidableEq κ] in
theorem nodup_entriesOf {subTries : List (κ × Trie κ α)} (distinct : (subTries.map Prod.fst).Nodup)
    (each : ∀ pair ∈ subTries, (pair.2.entries.map Prod.fst).Nodup) :
    ((entriesOf subTries).map Prod.fst).Nodup := by
  induction subTries with
  | nil => exact List.nodup_nil
  | cons pair others ih =>
      obtain ⟨c, sub⟩ := pair
      rw [List.map_cons, List.nodup_cons] at distinct
      rw [entriesOf, List.map_append, List.nodup_append]
      refine ⟨?_, ih distinct.2 fun pair member => each pair (List.mem_cons_of_mem _ member), ?_⟩
      · have inner := (each (c, sub) List.mem_cons_self).map (List.cons_injective (a := c))
        rw [List.map_map] at inner ⊢
        exact inner
      · intro key left other right same
        subst same
        obtain ⟨entry, member, rfl⟩ := List.mem_map.1 left
        obtain ⟨inner, -, rfl⟩ := List.mem_map.1 member
        obtain ⟨entry, later, is⟩ := List.mem_map.1 right
        obtain ⟨d, sub', rest, mem, -, is'⟩ := mem_entriesOf.1 later
        rw [is'] at is
        obtain ⟨rfl, -⟩ := List.cons.inj is
        exact distinct.1 (List.mem_map.2 ⟨_, mem, rfl⟩)

/-- **The entries of a trie are what is found in it**, each of them once. -/
theorem Pruned.entries_spec (pruned : Pruned t) :
    (t.entries.map Prod.fst).Nodup ∧
      ∀ key a, (key, a) ∈ t.entries ↔ t.lookUp key = some a := by
  induction pruned with
  | @intro t distinct inhabited below ih =>
      have whole : Pruned t := .intro distinct inhabited below
      obtain ⟨data, subTries⟩ := t
      have found : ∀ {c sub}, (c, sub) ∈ subTries → (node data subTries).findSubTrie c = some sub :=
        fun member => whole.find member
      rw [entries]
      constructor
      · rw [List.map_append, List.nodup_append]
        refine ⟨?_, ?_, ?_⟩
        · cases data <;> simp
        · exact nodup_entriesOf distinct fun pair member => (ih pair member).1
        · intro key left other right same
          subst same
          obtain ⟨entry, member, rfl⟩ := List.mem_map.1 left
          obtain ⟨a, -, rfl⟩ := List.mem_map.1 member
          obtain ⟨entry, later, is⟩ := List.mem_map.1 right
          obtain ⟨d, sub', rest, -, -, is'⟩ := mem_entriesOf.1 later
          rw [is'] at is
          cases is
      · intro key a
        rw [List.mem_append, mem_entriesOf]
        cases key with
        | nil => cases data <;> simp [lookUp, Trie.data, eq_comm]
        | cons c rest =>
            rw [lookUp_cons]
            constructor
            · rintro (isData | ⟨d, sub, inner, member, inside, is⟩)
              · simp at isData
              · obtain ⟨rfl, rfl⟩ := List.cons.inj is
                rw [found member]
                exact ((ih _ member).2 rest a).1 inside
            · intro isFound
              obtain ⟨sub, next, isFound⟩ := Option.bind_eq_some_iff.1 isFound
              have member := mem_of_findSubTrie next
              exact .inr ⟨c, sub, rest, member, ((ih _ member).2 rest a).2 isFound, rfl⟩

/-- What is reported for a key: the data of the entries that it begins. -/
theorem Pruned.lookUpPredictiveAll_spec (pruned : Pruned t) (key : List κ) :
    ∃ entries : List (List κ × α), (entries.map Prod.fst).Nodup ∧
      (∀ more a, (more, a) ∈ entries ↔ t.lookUp (key ++ more) = some a) ∧
      t.lookUpPredictiveAll key = entries.map Prod.snd := by
  induction key generalizing t with
  | nil => exact ⟨t.entries, pruned.entries_spec.1, pruned.entries_spec.2, (map_snd_entries t).symm⟩
  | cons c rest ih =>
      rw [lookUpPredictiveAll]
      simp only [List.cons_append, lookUp_cons]
      cases next : t.findSubTrie c with
      | none => exact ⟨[], List.nodup_nil, by simp, rfl⟩
      | some sub => exact ih (pruned.behind next).2

end Mozkey.Trie
