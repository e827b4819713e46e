import Mozkey.Base.Hash
import Mozkey.Storage.LruStorageRefinement

/-!
# Character forms

A rule puts characters into a group, and the form that was last chosen for one of them is meant for
all.  The manager keeps it for each character on its own, in a storage that forgets what was not used
for long.  A character that is stored with the form already is taken as a sign that its group is.

Characters are normalized first, and what kinds of characters there are is a parameter.
-/

namespace Mozkey.Config

open Mozkey.Lib Mozkey.Storage

/-- `Config::CharacterForm`. -/
inductive CharacterForm
  | halfWidth
  | fullWidth
  | lastForm
  | noConversion
  deriving DecidableEq, Repr

/-- The number of a form. -/
def CharacterForm.toUInt32 : CharacterForm → UInt32
  | halfWidth => 0
  | fullWidth => 1
  | lastForm => 2
  | noConversion => 3

/-- The form of a number.  Other numbers are not stored. -/
def CharacterForm.ofUInt32 (n : UInt32) : CharacterForm :=
  if n = 0 then halfWidth else if n = 1 then fullWidth else if n = 2 then lastForm else noConversion

/-- `Util::FormType`. -/
inductive FormType
  | halfWidth
  | fullWidth
  | unknownForm
  deriving DecidableEq, Repr

/-- What is known of texts. -/
structure Characters (Str : Type) where
  /-- `GetNormalizedCharacter`; zero is no character. -/
  getNormalizedCharacter : Str → UInt16
  /-- `Util::GetFormType`. -/
  getFormType : Str → FormType

/-! ## Rules -/

/-- `CharacterFormManagerImpl`, without its storage. -/
structure CharacterFormManager where
  conversionTable : AList fun _ : UInt16 => CharacterForm
  groupTable : AList fun _ : UInt16 => List UInt16

namespace CharacterFormManager

variable {Str : Type} (chars : Characters Str)

/-- `CharacterFormManagerImpl::Clear`. -/
def empty : CharacterFormManager := ⟨∅, ∅⟩

/-- The characters of a rule, in the order of the rule. -/
def normalizedCharacters (key : List Str) : List UInt16 :=
  (key.map chars.getNormalizedCharacter).filter (· ≠ 0)

/-- The characters of a rule, sorted and without repetitions. -/
def groupOf (key : List Str) : List UInt16 :=
  ((normalizedCharacters chars key).insertionSort (· ≤ ·)).dedup

def kMaxGroupSize : Nat := 128
def kMaxTableSize : Nat := 256

/-- `table[ucs2] = value` for each of the characters. -/
def assignAll {α : Type} (table : AList fun _ : UInt16 => α) (group : List UInt16) (value : α) :
    AList fun _ : UInt16 => α :=
  group.foldl (fun table ucs2 => table.insert ucs2 value) table

/-- `CharacterFormManagerImpl::AddRule`; none when the rule is skipped. -/
def addRule (m : CharacterFormManager) (key : List Str) (form : CharacterForm) :
    Option CharacterFormManager :=
  let size := (normalizedCharacters chars key).length
  if size = 0 ∨ size > kMaxGroupSize then none
  else if m.conversionTable.entries.length + size > kMaxTableSize ∨
      m.groupTable.entries.length + size > kMaxTableSize then none
  else
    let group := groupOf chars key
    some
      { conversionTable := assignAll m.conversionTable group form
        groupTable := if group.length > 1 then assignAll m.groupTable group group else m.groupTable }

/-- A rule: the characters of its key, and their form. -/
abbrev Rule (Str : Type) := List Str × CharacterForm

/-- The manager of rules that are all accepted. -/
def ofRules (rules : List (Rule Str)) : Option CharacterFormManager :=
  rules.foldlM (fun m rule => m.addRule chars rule.1 rule.2) empty

/-! ## The storage -/

def kLruSize : Nat := 128
def kSeedValue : UInt32 := 0x7fe1fed1
def kValueSize : Nat := 4

/-- The fingerprint of a character. -/
def fingerprint (s : LruStorage) (ucs2 : UInt16) : UInt64 :=
  legacyFingerprintWithSeed (storeUnaligned16 ucs2) s.seed

/-- `CharacterFormManagerImpl::GetCharacterFormFromStorage`. -/
def getCharacterFormFromStorage (s : LruStorage) (ucs2 : UInt16) : CharacterForm :=
  match s.lookup (fingerprint s ucs2) with
  | none => .fullWidth
  | some (value, _) => .ofUInt32 (loadUnaligned32At value)

/-- `storage_->Insert` for each of the characters. -/
def insertAll (now : UInt32) (form : CharacterForm) (s : LruStorage) (group : List UInt16) :
    LruStorage :=
  group.foldl
    (fun s ucs2 => (s.insert (fingerprint s ucs2) (some (storeUnaligned32 form.toUInt32)) now).1) s

/-- `CharacterFormManagerImpl::SaveCharacterFormToStorage`, at a time. -/
def saveCharacterFormToStorage (m : CharacterFormManager) (now : UInt32) (s : LruStorage)
    (ucs2 : UInt16) (form : CharacterForm) : LruStorage :=
  if form ≠ .fullWidth ∧ form ≠ .halfWidth then s
  else
    let insert :=
      match m.groupTable.lookup ucs2 with
      | none => insertAll now form s [ucs2]
      | some group => insertAll now form s group
    match s.lookup (fingerprint s ucs2) with
    | none => insert
    | some (value, _) =>
        -- only the first byte of the value is compared
        if CharacterForm.ofUInt32 (byteAt value 0).toUInt32 = form then s else insert

/-- `CharacterFormManagerImpl::GetCharacterForm`. -/
def getCharacterForm (m : CharacterFormManager) (s : LruStorage) (str : Str) : CharacterForm :=
  let ucs2 := chars.getNormalizedCharacter str
  if ucs2 = 0 then .noConversion
  else
    match m.conversionTable.lookup ucs2 with
    | none => .noConversion
    | some .lastForm => getCharacterFormFromStorage s ucs2
    | some form => form

/-- `CharacterFormManagerImpl::SetCharacterForm`. -/
def setCharacterForm (m : CharacterFormManager) (now : UInt32) (s : LruStorage) (str : Str)
    (form : CharacterForm) : LruStorage :=
  let ucs2 := chars.getNormalizedCharacter str
  if ucs2 = 0 then s
  else if m.conversionTable.lookup ucs2 = some .lastForm then
    m.saveCharacterFormToStorage now s ucs2 form
  else s

/-- `CharacterFormManagerImpl::GuessAndSetCharacterForm`. -/
def guessAndSetCharacterForm (m : CharacterFormManager) (now : UInt32) (s : LruStorage)
    (str : Str) : LruStorage :=
  match chars.getFormType str with
  | .fullWidth => m.setCharacterForm chars now s str .fullWidth
  | .halfWidth => m.setCharacterForm chars now s str .halfWidth
  | .unknownForm => s

/-! ## Runs -/

/-- A call that sets a form. -/
inductive Call (Str : Type)
  | setCharacterForm (str : Str) (form : CharacterForm)
  | guessAndSetCharacterForm (str : Str)

/-- A call at a time. -/
def call (m : CharacterFormManager) (s : LruStorage) : UInt32 × Call Str → LruStorage
  | (now, .setCharacterForm str form) => m.setCharacterForm chars now s str form
  | (now, .guessAndSetCharacterForm str) => m.guessAndSetCharacterForm chars now s str

/-- `LruStorage::Create`, of a file that is not there yet. -/
def newStorage : LruStorage :=
  LruStorage.openSlots kValueSize kLruSize kSeedValue
    (List.replicate kLruSize (LruItem.zero kValueSize))

/-- A run of calls. -/
def run (m : CharacterFormManager) (calls : List (UInt32 × Call Str)) : LruStorage :=
  calls.foldl (m.call chars) newStorage

/-! ## Tables of disjoint rules -/

variable {chars}

theorem mem_groupOf {key : List Str} {ucs2 : UInt16} :
    ucs2 ∈ groupOf chars key ↔ ucs2 ≠ 0 ∧ ∃ str ∈ key, chars.getNormalizedCharacter str = ucs2 := by
  unfold groupOf normalizedCharacters
  rw [List.mem_dedup, List.mem_insertionSort, List.mem_filter, List.mem_map, decide_eq_true_iff]
  exact and_comm

theorem length_groupOf_le (key : List Str) :
    (groupOf chars key).length ≤ (normalizedCharacters chars key).length :=
  (List.dedup_sublist _).length_le.trans (List.length_insertionSort _ _).le

theorem lookup_assignAll {α : Type} (table : AList fun _ : UInt16 => α) (group : List UInt16)
    (value : α) (ucs2 : UInt16) :
    (assignAll table group value).lookup ucs2 =
      if ucs2 ∈ group then some value else table.lookup ucs2 := by
  unfold assignAll
  induction group generalizing table with
  | nil => rw [List.foldl_nil, if_neg List.not_mem_nil]
  | cons first group ih =>
      rw [List.foldl_cons, ih]
      by_cases later : ucs2 ∈ group
      · rw [if_pos later, if_pos (List.mem_cons_of_mem _ later)]
      · rw [if_neg later]
        by_cases same : ucs2 = first
        · subst same
          rw [AList.lookup_insert, if_pos List.mem_cons_self]
        · rw [AList.lookup_insert_ne same, if_neg]
          exact fun member => (List.mem_cons.1 member).elim same later

/-- The tables know the rules, and nothing of other characters. -/
structure Knows (chars : Characters Str) (m : CharacterFormManager) (rules : List (Rule Str)) :
    Prop where
  form : ∀ rule ∈ rules, ∀ ucs2 ∈ groupOf chars rule.1, m.conversionTable.lookup ucs2 = some rule.2
  group : ∀ rule ∈ rules, ∀ ucs2 ∈ groupOf chars rule.1,
    (m.groupTable.lookup ucs2).getD [ucs2] = groupOf chars rule.1
  other : ∀ ucs2, (∀ rule ∈ rules, ucs2 ∉ groupOf chars rule.1) → m.groupTable.lookup ucs2 = none
  small : ∀ rule ∈ rules, (groupOf chars rule.1).length ≤ kMaxGroupSize

/-- The groups of the rules have no characters in common. -/
def DisjointGroups (chars : Characters Str) (rules : List (Rule Str)) : Prop :=
  rules.Pairwise fun rule rule' => (groupOf chars rule.1).Disjoint (groupOf chars rule'.1)

theorem knows_empty : Knows chars empty [] :=
  ⟨List.forall_mem_nil _, List.forall_mem_nil _, fun _ _ => rfl, List.forall_mem_nil _⟩

/-- Adding a rule for new characters. -/
theorem Knows.addRule {m m' : CharacterFormManager} {rules : List (Rule Str)} {rule : Rule Str}
    (knows : Knows chars m rules)
    (disjoint : ∀ r ∈ rules, (groupOf chars r.1).Disjoint (groupOf chars rule.1))
    (added : m.addRule chars rule.1 rule.2 = some m') : Knows chars m' (rules ++ [rule]) := by
  unfold CharacterFormManager.addRule at added
  dsimp only at added
  split_ifs at added with skipped tooBig several
  all_goals
    obtain rfl := Option.some.inj added
    have few : (groupOf chars rule.1).length ≤ kMaxGroupSize :=
      (length_groupOf_le rule.1).trans (Nat.le_of_not_lt (not_or.1 skipped).2)
    have old {r : Rule Str} (member : r ∈ rules) {ucs2 : UInt16}
        (inGroup : ucs2 ∈ groupOf chars r.1) : ucs2 ∉ groupOf chars rule.1 :=
      fun inRule => disjoint r member inGroup inRule
    refine ⟨?_, ?_, ?_, ?_⟩
  · rw [List.forall_mem_append, List.forall_mem_singleton]
    refine ⟨fun r member ucs2 inGroup => ?_, fun ucs2 inGroup => ?_⟩
    · rw [lookup_assignAll, if_neg (old member inGroup)]
      exact knows.form r member ucs2 inGroup
    · rw [lookup_assignAll, if_pos inGroup]
  · rw [List.forall_mem_append, List.forall_mem_singleton]
    refine ⟨fun r member ucs2 inGroup => ?_, fun ucs2 inGroup => ?_⟩
    · rw [lookup_assignAll, if_neg (old member inGroup)]
      exact knows.group r member ucs2 inGroup
    · rw [lookup_assignAll, if_pos inGroup, Option.getD_some]
  · intro ucs2 absent
    rw [List.forall_mem_append, List.forall_mem_singleton] at absent
    rw [lookup_assignAll, if_neg absent.2]
    exact knows.other ucs2 absent.1
  · rw [List.forall_mem_append, List.forall_mem_singleton]
    exact ⟨knows.small, few⟩
  · rw [List.forall_mem_append, List.forall_mem_singleton]
    refine ⟨fun r member ucs2 inGroup => ?_, fun ucs2 inGroup => ?_⟩
    · rw [lookup_assignAll, if_neg (old member inGroup)]
      exact knows.form r member ucs2 inGroup
    · rw [lookup_assignAll, if_pos inGroup]
  · rw [List.forall_mem_append, List.forall_mem_singleton]
    refine ⟨knows.group, fun ucs2 inGroup => ?_⟩
    have alone : ∀ r ∈ rules, ucs2 ∉ groupOf chars r.1 :=
      fun r member inOther => disjoint r member inOther inGroup
    rw [knows.other ucs2 alone, Option.getD_none]
    obtain ⟨only, isOnly⟩ := List.length_eq_one_iff.1
      (Nat.le_antisymm (Nat.le_of_not_lt several) (List.length_pos_of_mem inGroup))
    rw [isOnly] at inGroup ⊢
    rw [List.mem_singleton.1 inGroup]
  · intro ucs2 absent
    rw [List.forall_mem_append] at absent
    exact knows.other ucs2 absent.1
  · rw [List.forall_mem_append, List.forall_mem_singleton]
    exact ⟨knows.small, few⟩

/-- The tables of disjoint rules know them. -/
theorem knows_ofRules {rules : List (Rule Str)} {m : CharacterFormManager}
    (disjoint : DisjointGroups chars rules) (built : ofRules chars rules = some m) :
    Knows chars m rules := by
  have later : ∀ (rules before : List (Rule Str)) (m' : CharacterFormManager),
      Knows chars m' before → DisjointGroups chars (before ++ rules) →
      rules.foldlM (fun m rule => m.addRule chars rule.1 rule.2) m' = some m →
      Knows chars m (before ++ rules) := by
    intro rules
    induction rules with
    | nil =>
        intro before m' knows _ built
        obtain rfl := Option.some.inj built
        rwa [List.append_nil]
    | cons rule rules ih =>
        intro before m' knows disjoint built
        rw [List.foldlM_cons] at built
        obtain ⟨next, added, built⟩ := Option.bind_eq_some_iff.1 built
        have apart : ∀ r ∈ before, (groupOf chars r.1).Disjoint (groupOf chars rule.1) :=
          fun r member => (List.pairwise_append.1 disjoint).2.2 r member rule List.mem_cons_self
        have regroup : before ++ rule :: rules = before ++ [rule] ++ rules := by
          rw [List.append_assoc, List.singleton_append]
        rw [regroup] at disjoint ⊢
        exact ih (before ++ [rule]) next (knows.addRule apart added) disjoint built
  exact later rules [] empty knows_empty disjoint built

/-! ## Storages of forms -/

/-- A storage in step, whose values are forms. -/
structure Ready (s : LruStorage) : Prop where
  linked : LruStorage.Linked s
  shaped : LruStorage.Shaped s
  valueSize : s.valueSize = kValueSize
  size : s.size = kLruSize
  forms : ∀ e ∈ s.entries, e.2.1 = storeUnaligned32 0 ∨ e.2.1 = storeUnaligned32 1

/-- The forms that are stored. -/
def IsStored (form : CharacterForm) : Prop := form = .fullWidth ∨ form = .halfWidth

theorem newStorage_spec : Ready newStorage ∧ newStorage.entries = [] := by
  have valid : ValidSizes kValueSize kLruSize := by decide
  have created : createStorageFile kValueSize kLruSize kSeedValue = some _ := if_pos valid
  have opened := (LruStorage.open_createStorageFile created).2
  obtain ⟨follows, -, value⟩ := LruStorage.follows_fresh created opened (Set.injOn_empty _)
  have nothing : newStorage.entries = [] := follows.entries_eq
  refine ⟨⟨follows.linked, follows.shaped, value, follows.size_eq, ?_⟩, nothing⟩
  rw [nothing]
  exact List.forall_mem_nil _

theorem ready_newStorage : Ready newStorage := newStorage_spec.1

theorem entries_newStorage : newStorage.entries = [] := newStorage_spec.2

theorem Ready.length_entries_le {s : LruStorage} (ready : Ready s) :
    s.entries.length ≤ s.size := by
  rw [LruStorage.entries, List.length_map, ready.linked.length_list]
  exact ready.linked.nextItem_le

/-- The value that is stored for a form. -/
theorem storeUnaligned32_form {form : CharacterForm} (stored : IsStored form) :
    storeUnaligned32 form.toUInt32 = storeUnaligned32 0 ∨
      storeUnaligned32 form.toUInt32 = storeUnaligned32 1 := by
  rcases stored with rfl | rfl
  · exact .inr rfl
  · exact .inl rfl

/-- One insertion puts its entry in front, and the last entry may go. -/
theorem Ready.entries_insert {s : LruStorage} (ready : Ready s) (form : CharacterForm)
    (fp : UInt64) (now : UInt32) :
    (s.insert fp (some (storeUnaligned32 form.toUInt32)) now).1.entries =
      ((fp, (storeUnaligned32 form.toUInt32, now)) :: LruMap.others fp s.entries).take s.size := by
  let m : UseMap UInt64 s.size := ⟨s.entries, ready.linked.nodup_entries, ready.length_entries_le⟩
  have fits : (storeUnaligned32 form.toUInt32).length = s.valueSize := by
    rw [ready.valueSize]
    rfl
  exact (LruStorage.insert_becomes (m := m) ready.linked rfl
    (by rw [ready.size]; decide) fp now fits).entries_eq

/-- One insertion keeps the storage ready, and the latest entries in front. -/
theorem Ready.insert {s : LruStorage} (ready : Ready s) {form : CharacterForm}
    (stored : IsStored form) (fp : UInt64) (now : UInt32) :
    Ready (s.insert fp (some (storeUnaligned32 form.toUInt32)) now).1 ∧
      (s.insert fp (some (storeUnaligned32 form.toUInt32)) now).1.seed = s.seed ∧
      ∀ front rest, s.entries = front ++ rest → front.length < kLruSize → ∃ rest',
        (s.insert fp (some (storeUnaligned32 form.toUInt32)) now).1.entries =
          ((fp, (storeUnaligned32 form.toUInt32, now)) :: LruMap.others fp front) ++ rest' := by
  let m : UseMap UInt64 s.size := ⟨s.entries, ready.linked.nodup_entries, ready.length_entries_le⟩
  have fits : (storeUnaligned32 form.toUInt32).length = s.valueSize := by
    rw [ready.valueSize]
    rfl
  have becomes := LruStorage.insert_becomes (m := m) ready.linked rfl
    (by rw [ready.size]; decide) fp now fits
  obtain ⟨value, size, seed⟩ := becomes.sizes
  refine ⟨⟨becomes.linked, becomes.shaped ready.shaped, value.trans ready.valueSize,
    size.trans ready.size, ?_⟩, seed, ?_⟩
  · intro e member
    rw [becomes.entries_eq] at member
    rcases List.mem_cons.1 (List.mem_of_mem_take member) with rfl | old
    · exact storeUnaligned32_form stored
    · exact ready.forms e ((LruMap.others_sublist fp m.elements).subset old)
  · intro front rest split short
    rw [becomes.entries_eq]
    exact LruMap.insert_front split (by rwa [ready.size]) fp _

theorem fingerprint_congr {s t : LruStorage} (seed : t.seed = s.seed) :
    fingerprint t = fingerprint s := by
  funext ucs2
  rw [fingerprint, seed]
  rfl

/-- What the insertion of a group leaves: all of it, and in front. -/
theorem Ready.insertAll {form : CharacterForm} (stored : IsStored form) (now : UInt32)
    {group : List UInt16} {s : LruStorage} (ready : Ready s)
    {front rest : List (UInt64 × (ByteString × UInt32))} (split : s.entries = front ++ rest)
    (same : ∀ e ∈ front, e.2 = (storeUnaligned32 form.toUInt32, now))
    (fits : front.length + group.length ≤ kLruSize) :
    Ready (insertAll now form s group) ∧ (insertAll now form s group).seed = s.seed ∧
      ∀ fp, fp ∈ front.map Prod.fst ∨ fp ∈ group.map (fingerprint s) →
        (fp, (storeUnaligned32 form.toUInt32, now)) ∈ (insertAll now form s group).entries := by
  induction group generalizing s front rest with
  | nil =>
      refine ⟨ready, rfl, fun fp member => ?_⟩
      obtain ⟨e, inFront, rfl⟩ := List.mem_map.1 (member.resolve_right List.not_mem_nil)
      have isEntry : (e.1, (storeUnaligned32 form.toUInt32, now)) = e := by
        rw [← same e inFront]
      rw [isEntry]
      change e ∈ s.entries
      rw [split]
      exact List.mem_append_left _ inFront
  | cons first group ih =>
      have short : front.length < kLruSize := by
        rw [List.length_cons] at fits
        omega
      obtain ⟨ready', seed, moved⟩ := ready.insert stored (fingerprint s first) now
      obtain ⟨rest', split'⟩ := moved front rest split short
      have fewer := (LruMap.others_sublist (fingerprint s first) front).length_le
      have same' : ∀ e ∈ (fingerprint s first, (storeUnaligned32 form.toUInt32, now)) ::
          LruMap.others (fingerprint s first) front,
          e.2 = (storeUnaligned32 form.toUInt32, now) := by
        refine List.forall_mem_cons.2 ⟨rfl, fun e member => same e ?_⟩
        exact (LruMap.others_sublist _ front).subset member
      obtain ⟨ready'', seed', all⟩ := ih ready' split' same' (by
        rw [List.length_cons] at fits ⊢
        omega)
      refine ⟨ready'', seed'.trans seed, fun fp member => all fp ?_⟩
      rw [fingerprint_congr seed]
      rcases member with old | new
      · left
        rw [List.map_cons, List.mem_cons]
        by_cases isFirst : fp = fingerprint s first
        · exact .inl isFirst
        · right
          obtain ⟨e, inFront, rfl⟩ := List.mem_map.1 old
          exact List.mem_map_of_mem (List.mem_filter.2 ⟨inFront, decide_eq_true isFirst⟩)
      · rw [List.map_cons, List.mem_cons] at new
        rcases new with rfl | later
        · exact .inl List.mem_cons_self
        · exact .inr later

/-- The entries in front stay, as long as there is room for them and the group, and except for
those of the group. -/
theorem insertAll_keeps {form : CharacterForm} (stored : IsStored form) (now : UInt32)
    {group : List UInt16} {s : LruStorage} (ready : Ready s)
    {front rest : List (UInt64 × (ByteString × UInt32))} (split : s.entries = front ++ rest)
    (fits : front.length + group.length ≤ kLruSize) {e : UInt64 × (ByteString × UInt32)}
    (member : e ∈ front) (other : e.1 ∉ group.map (fingerprint s)) :
    e ∈ (insertAll now form s group).entries := by
  induction group generalizing s front rest with
  | nil =>
      change e ∈ s.entries
      rw [split]
      exact List.mem_append_left _ member
  | cons first group ih =>
      rw [List.length_cons] at fits
      obtain ⟨ready', seed, moved⟩ := ready.insert stored (fingerprint s first) now
      obtain ⟨rest', split'⟩ := moved front rest split (by omega)
      have fewer := (LruMap.others_sublist (fingerprint s first) front).length_le
      rw [List.map_cons, List.mem_cons, not_or] at other
      have stays : e ∈ LruMap.others (fingerprint s first) front :=
        List.mem_filter.2 ⟨member, decide_eq_true other.1⟩
      refine ih ready' split' ?_ (List.mem_cons_of_mem _ stays) ?_
      · rw [List.length_cons]
        omega
      · rw [fingerprint_congr seed]
        exact other.2

/-- Only the keys of the group are new. -/
theorem keys_insertAll {form : CharacterForm} (stored : IsStored form) (now : UInt32)
    {group : List UInt16} {s : LruStorage} (ready : Ready s) {fp : UInt64}
    (member : fp ∈ (insertAll now form s group).entries.map Prod.fst) :
    fp ∈ group.map (fingerprint s) ∨ fp ∈ s.entries.map Prod.fst := by
  induction group generalizing s with
  | nil => exact .inr member
  | cons first group ih =>
      obtain ⟨ready', seed, _⟩ := ready.insert stored (fingerprint s first) now
      have entries := ready.entries_insert form (fingerprint s first) now
      rcases ih ready' member with later | old
      · rw [fingerprint_congr seed] at later
        exact .inl (List.mem_cons_of_mem _ later)
      · obtain ⟨e, inEntries, rfl⟩ := List.mem_map.1 old
        rw [entries] at inEntries
        rcases List.mem_cons.1 (List.mem_of_mem_take inEntries) with rfl | kept
        · exact .inl List.mem_cons_self
        · exact .inr (List.mem_map_of_mem ((LruMap.others_sublist _ s.entries).subset kept))

/-! ## What a call does -/

/-- The form that is stored for a character. -/
def storedForm (s : LruStorage) (ucs2 : UInt16) : Option CharacterForm :=
  (s.lookup (fingerprint s ucs2)).map fun found => .ofUInt32 (loadUnaligned32At found.1)

theorem storedForm_eq_none {s : LruStorage} {ucs2 : UInt16}
    (absent : ∀ entry, (fingerprint s ucs2, entry) ∉ s.entries) (ready : Ready s) :
    storedForm s ucs2 = none := by
  cases found : s.lookup (fingerprint s ucs2) with
  | none => rw [storedForm, found, Option.map_none]
  | some entry => exact absurd (ready.linked.lookup_eq_some_iff.1 found) (absent entry)

/-- Nothing is stored yet. -/
theorem storedForm_newStorage (ucs2 : UInt16) : storedForm newStorage ucs2 = none :=
  storedForm_eq_none (fun _ member => List.not_mem_nil (entries_newStorage ▸ member))
    ready_newStorage

theorem getCharacterFormFromStorage_eq (s : LruStorage) (ucs2 : UInt16) :
    getCharacterFormFromStorage s ucs2 = (storedForm s ucs2).getD .fullWidth := by
  unfold getCharacterFormFromStorage storedForm
  rcases s.lookup (fingerprint s ucs2) with _ | ⟨value, time⟩
  · rfl
  · rw [Option.map_some, Option.getD_some]

/-- The characters that are saved together with a character. -/
def savedWith (m : CharacterFormManager) (ucs2 : UInt16) : List UInt16 :=
  (m.groupTable.lookup ucs2).getD [ucs2]

theorem loadUnaligned32At_storeUnaligned32 (x : UInt32) :
    loadUnaligned32At (storeUnaligned32 x) = x := by
  have loaded := loadUnaligned32At_store x []
  rwa [List.append_nil] at loaded

/-- A form is saved for all of the group, unless the character has it already. -/
theorem saveCharacterFormToStorage_eq {s : LruStorage} (ready : Ready s) (m : CharacterFormManager)
    (now : UInt32) (ucs2 : UInt16) {form : CharacterForm} (stored : IsStored form) :
    m.saveCharacterFormToStorage now s ucs2 form =
      if storedForm s ucs2 = some form then s else insertAll now form s (m.savedWith ucs2) := by
  have isForm : ¬ (form ≠ .fullWidth ∧ form ≠ .halfWidth) := by
    rintro ⟨notFull, notHalf⟩
    exact stored.elim notFull notHalf
  unfold saveCharacterFormToStorage storedForm savedWith
  rw [if_neg isForm]
  have insert : (match m.groupTable.lookup ucs2 with
      | none => insertAll now form s [ucs2]
      | some group => insertAll now form s group) =
        insertAll now form s ((m.groupTable.lookup ucs2).getD [ucs2]) := by
    cases m.groupTable.lookup ucs2 <;> rfl
  dsimp only
  rw [insert]
  cases found : s.lookup (fingerprint s ucs2) with
  | none => exact (if_neg nofun).symm
  | some entry =>
      obtain ⟨value, time⟩ := entry
      have values := ready.forms _ (ready.linked.lookup_eq_some_iff.1 found)
      have firstByte : (byteAt value 0).toUInt32 = loadUnaligned32At value := by
        rcases values with isHalf | isFull
        · obtain rfl : value = storeUnaligned32 0 := isHalf
          rw [loadUnaligned32At_storeUnaligned32]
          rfl
        · obtain rfl : value = storeUnaligned32 1 := isFull
          rw [loadUnaligned32At_storeUnaligned32]
          rfl
      dsimp only [Option.map_some]
      rw [firstByte]
      by_cases same : CharacterForm.ofUInt32 (loadUnaligned32At value) = form
      · rw [if_pos same, if_pos (congrArg some same)]
      · rw [if_neg same, if_neg fun isSome => same (Option.some.inj isSome)]

theorem ofUInt32_toUInt32 (form : CharacterForm) : .ofUInt32 form.toUInt32 = form := by
  cases form <;> rfl

/-- Once a group is inserted, all of it is stored with the form. -/
theorem storedForm_insertAll {s : LruStorage} (ready : Ready s) {form : CharacterForm}
    (stored : IsStored form) (now : UInt32) {group : List UInt16} (few : group.length ≤ kLruSize) :
    Ready (insertAll now form s group) ∧
      ∀ ucs2 ∈ group, storedForm (insertAll now form s group) ucs2 = some form := by
  obtain ⟨ready', seed, all⟩ := ready.insertAll stored now (List.nil_append s.entries).symm
    (List.forall_mem_nil _) (by rwa [List.length_nil, Nat.zero_add])
  refine ⟨ready', fun ucs2 member => ?_⟩
  have inEntries := all _ (.inr (List.mem_map_of_mem member))
  have sameFingerprint : fingerprint (insertAll now form s group) ucs2 = fingerprint s ucs2 := by
    rw [fingerprint, seed]
    rfl
  rw [storedForm, sameFingerprint, ready'.linked.lookup_eq_some_iff.2 inEntries, Option.map_some,
    loadUnaligned32At_storeUnaligned32, ofUInt32_toUInt32]

/-- The tables of rules whose groups can be stored at once. -/
def FewTogether (m : CharacterFormManager) : Prop :=
  ∀ ucs2, m.conversionTable.lookup ucs2 = some .lastForm → (m.savedWith ucs2).length ≤ kLruSize

/-- Every call keeps the storage ready. -/
theorem Ready.setCharacterForm {s : LruStorage} (ready : Ready s) {m : CharacterFormManager}
    (few : FewTogether m) (now : UInt32) (str : Str) (form : CharacterForm) :
    Ready (m.setCharacterForm chars now s str form) := by
  unfold CharacterFormManager.setCharacterForm
  dsimp only
  split_ifs with noCharacter isLast
  · exact ready
  · by_cases stored : IsStored form
    · rw [saveCharacterFormToStorage_eq ready m now _ stored]
      split_ifs
      · exact ready
      · exact (storedForm_insertAll ready stored now (few _ isLast)).1
    · unfold saveCharacterFormToStorage
      rw [if_pos (not_or.1 stored)]
      exact ready
  · exact ready

theorem Ready.call {s : LruStorage} (ready : Ready s) {m : CharacterFormManager}
    (few : FewTogether m) (step : UInt32 × Call Str) : Ready (m.call chars s step) := by
  obtain ⟨now, call⟩ := step
  cases call with
  | setCharacterForm str form => exact ready.setCharacterForm few now str form
  | guessAndSetCharacterForm str =>
      unfold CharacterFormManager.call
      dsimp only
      unfold guessAndSetCharacterForm
      split
      · exact ready.setCharacterForm few now str .fullWidth
      · exact ready.setCharacterForm few now str .halfWidth
      · exact ready

/-- **Every run** keeps the storage ready. -/
theorem ready_run {m : CharacterFormManager} (few : FewTogether m)
    (calls : List (UInt32 × Call Str)) : Ready (m.run chars calls) := by
  unfold run
  generalize isStart : newStorage = start
  have ready : Ready start := isStart ▸ ready_newStorage
  clear isStart
  induction calls generalizing start with
  | nil => exact ready
  | cons step calls ih => exact ih _ (ready.call few step)

theorem assignAll_mem {α : Type} {table : AList fun _ : UInt16 => α} {group : List UInt16}
    {value found : α} {ucs2 : UInt16}
    (isFound : (assignAll table group value).lookup ucs2 = some found) : found = value ∨ table.lookup ucs2 = some found := by
  rw [lookup_assignAll] at isFound
  split_ifs at isFound
  · exact .inl (Option.some.inj isFound).symm
  · exact .inr isFound

/-- No rule has more characters than the storage. -/
theorem fewTogether_ofRules {rules : List (Rule Str)} {m : CharacterFormManager}
    (built : ofRules chars rules = some m) : FewTogether m := by
  have small : ∀ ucs2 group, m.groupTable.lookup ucs2 = some group → group.length ≤ kLruSize := by
    unfold ofRules at built
    have start : ∀ ucs2 group,
        empty.groupTable.lookup ucs2 = some group → group.length ≤ kLruSize :=
      fun ucs2 group found => by cases found
    generalize empty = m' at built start
    induction rules generalizing m' with
    | nil =>
        obtain rfl := Option.some.inj built
        exact start
    | cons rule rules ih =>
        rw [List.foldlM_cons] at built
        obtain ⟨next, added, built⟩ := Option.bind_eq_some_iff.1 built
        refine ih next built fun ucs2 group found => ?_
        unfold CharacterFormManager.addRule at added
        dsimp only at added
        split_ifs at added with skipped tooBig several
        · obtain rfl := Option.some.inj added
          rcases assignAll_mem found with rfl | old
          · exact (length_groupOf_le rule.1).trans (Nat.le_of_not_lt (not_or.1 skipped).2)
          · exact start ucs2 group old
        · obtain rfl := Option.some.inj added
          exact start ucs2 group found
  intro ucs2 _
  unfold savedWith
  cases found : m.groupTable.lookup ucs2 with
  | none => exact (by decide : 1 ≤ kLruSize)
  | some group => exact small ucs2 group found

/-! ## Main result -/

/-- Every character of a group is stored with a form, or it is missing and the form is the
default. -/
def GroupStored (s : LruStorage) (group : List UInt16) (form : CharacterForm) : Prop :=
  ∀ ucs2 ∈ group, storedForm s ucs2 = some form ∨ storedForm s ucs2 = none ∧ form = .fullWidth

theorem getD_eq_iff {form : CharacterForm} (stored : Option CharacterForm) :
    stored.getD .fullWidth = form ↔ stored = some form ∨ stored = none ∧ form = .fullWidth := by
  cases stored with
  | none => simp [eq_comm]
  | some other => simp

/-- Setting the form of a character of a group saves it for the group, unless it is stored. -/
theorem Knows.setCharacterForm_eq {rules : List (Rule Str)} {m : CharacterFormManager}
    (knows : Knows chars m rules) {s : LruStorage} (ready : Ready s) (now : UInt32)
    {key : List Str} (rule : (key, CharacterForm.lastForm) ∈ rules) {str : Str}
    (inGroup : chars.getNormalizedCharacter str ∈ groupOf chars key) {form : CharacterForm}
    (isForm : IsStored form) :
    m.setCharacterForm chars now s str form =
      if storedForm s (chars.getNormalizedCharacter str) = some form then s
      else insertAll now form s (groupOf chars key) := by
  have together : m.savedWith (chars.getNormalizedCharacter str) = groupOf chars key :=
    knows.group _ rule _ inGroup
  unfold setCharacterForm
  dsimp only
  rw [if_neg (mem_groupOf.1 inGroup).1, if_pos (knows.form _ rule _ inGroup),
    saveCharacterFormToStorage_eq ready m now _ isForm, together]

/-- **The characters of a group stay together** exactly if the character is not stored with the form
yet, or its whole group is. -/
theorem getCharacterForm_group_iff {rules : List (Rule Str)} {m : CharacterFormManager}
    (disjoint : DisjointGroups chars rules) (built : ofRules chars rules = some m)
    {key : List Str} (rule : (key, CharacterForm.lastForm) ∈ rules) {str : Str}
    (inGroup : chars.getNormalizedCharacter str ∈ groupOf chars key) {form : CharacterForm}
    (isForm : form = .fullWidth ∨ form = .halfWidth) (calls : List (UInt32 × Call Str))
    (now : UInt32) :
    (∀ other, chars.getNormalizedCharacter other ∈ groupOf chars key →
        m.getCharacterForm chars (m.setCharacterForm chars now (m.run chars calls) str form) other =
          form) ↔
      storedForm (m.run chars calls) (chars.getNormalizedCharacter str) ≠ some form ∨
        GroupStored (m.run chars calls) (groupOf chars key) form := by
  have knows := knows_ofRules disjoint built
  have ready : Ready (m.run chars calls) := ready_run (fewTogether_ofRules built) calls
  have few : (groupOf chars key).length ≤ kLruSize := knows.small _ rule
  generalize m.run chars calls = s at ready ⊢
  have nonzero {other : Str} (member : chars.getNormalizedCharacter other ∈ groupOf chars key) :
      chars.getNormalizedCharacter other ≠ 0 := (mem_groupOf.1 member).1
  have reads (s : LruStorage) {other : Str}
      (member : chars.getNormalizedCharacter other ∈ groupOf chars key) :
      m.getCharacterForm chars s other =
        (storedForm s (chars.getNormalizedCharacter other)).getD .fullWidth := by
    unfold getCharacterForm
    dsimp only
    rw [if_neg (nonzero member), knows.form _ rule _ member, getCharacterFormFromStorage_eq]
  have saves := knows.setCharacterForm_eq ready now rule inGroup isForm
  rw [saves]
  by_cases already : storedForm s (chars.getNormalizedCharacter str) = some form
  · rw [if_pos already, or_iff_right (not_not.2 already)]
    constructor
    · intro all ucs2 member
      obtain ⟨-, other, -, rfl⟩ := mem_groupOf.1 member
      rw [← getD_eq_iff, ← reads s member]
      exact all other member
    · intro stored other member
      rw [reads s member, getD_eq_iff]
      exact stored _ member
  · rw [if_neg already]
    refine iff_of_true (fun other member => ?_) (.inl already)
    rw [reads _ member, (storedForm_insertAll ready isForm now few).2 _ member, Option.getD_some]

/-- Characters that are given by their codes. -/
def codes : Characters UInt16 := ⟨id, fun _ => .unknownForm⟩

/-- A comma is chosen in half width for the first time. -/
theorem getCharacterForm_comma : ∃ m, ofRules codes [([0x2E, 0x2C], .lastForm)] = some m ∧
    ∀ other, codes.getNormalizedCharacter other ∈ groupOf codes [0x2E, 0x2C] →
      m.getCharacterForm codes (m.setCharacterForm codes 1 (m.run codes []) 0x2C .halfWidth) other =
        .halfWidth := by
  obtain ⟨m, built⟩ := Option.isSome_iff_exists.1 (by decide :
    (ofRules codes [([0x2E, 0x2C], .lastForm)]).isSome = true)
  have notStored : storedForm newStorage 0x2C ≠ some .halfWidth := by
    rw [storedForm_newStorage]
    exact (Option.some_ne_none _).symm
  refine ⟨m, built, (getCharacterForm_group_iff ?_ built List.mem_cons_self ?_ (.inr rfl) [] 1).2
    (.inl notStored)⟩
  · exact List.pairwise_singleton _ _
  · decide

/-- **In every run** the storage stays in step, of its size, and holds forms only. -/
theorem ready_of_run {rules : List (Rule Str)} {m : CharacterFormManager}
    (built : ofRules chars rules = some m) (calls : List (UInt32 × Call Str)) :
    Ready (m.run chars calls) :=
  ready_run (fewTogether_ofRules built) calls

theorem ready_of_run_comma : ∃ m, ofRules codes [([0x2E, 0x2C], .lastForm)] = some m ∧
    Ready (m.run codes [(1, .setCharacterForm 0x2C .halfWidth)]) := by
  obtain ⟨m, built⟩ := Option.isSome_iff_exists.1 (by decide :
    (ofRules codes [([0x2E, 0x2C], .lastForm)]).isSome = true)
  exact ⟨m, built, ready_of_run built _⟩

/-- Two characters in one group, and 127 others in another one. -/
def twoGroups : List (Rule UInt16) :=
  [([0x2600, 0x2601], .lastForm),
    ((List.range 127).map fun i => UInt16.ofNat (0x2602 + i), .lastForm)]

/-- The second group pushes the first character out of the storage. -/
def pushedOut : List (UInt32 × Call UInt16) :=
  [(1, .setCharacterForm 0x2600 .halfWidth), (2, .setCharacterForm 0x2602 .halfWidth)]

theorem disjoint_twoGroups : DisjointGroups codes twoGroups := by
  have apart : ∀ ucs2 ∈ ([0x2600, 0x2601] : List UInt16),
      ucs2 ∉ (List.range 127).map fun i => UInt16.ofNat (0x2602 + i) := by
    intro ucs2 first second
    have less : ucs2.toNat < 0x2602 := by
      rcases List.mem_pair.1 first with rfl | rfl <;> decide
    obtain ⟨i, inside, rfl⟩ := List.mem_map.1 second
    have few := List.mem_range.1 inside
    rw [UInt16.toNat_ofNat'] at less
    omega
  refine List.pairwise_pair.2 fun ucs2 inFirst inSecond => ?_
  obtain ⟨-, _, first, rfl⟩ := mem_groupOf.1 inFirst
  obtain ⟨-, _, second, same⟩ := mem_groupOf.1 inSecond
  obtain rfl : _ = _ := same
  exact apart _ first second

/-- A fingerprint of the two groups, as a number. -/
def groupFingerprint (i : Nat) : Nat := (fingerprint newStorage (UInt16.ofNat (0x2600 + i))).toNat

theorem seed_newStorage : newStorage.seed = kSeedValue :=
  (LruStorage.fields_openSlots _ _ _ _).2.2.1

theorem groupFingerprint_eq (i : Nat) : groupFingerprint i =
    (legacyFingerprintWithSeed (storeUnaligned16 (UInt16.ofNat (0x2600 + i))) kSeedValue).toNat := by
  rw [groupFingerprint, fingerprint, seed_newStorage]

/-- No number of the list is marked in `seen` or stands twice in the list. -/
def fresh (seen : Nat) : List Nat → Bool
  | [] => true
  | n :: rest => !seen.testBit n && fresh (seen ||| 1 <<< n) rest

theorem nodup_of_fresh {seen : Nat} {list : List Nat} (isFresh : fresh seen list = true) :
    list.Nodup ∧ ∀ n ∈ list, seen.testBit n = false := by
  induction list generalizing seen with
  | nil => exact ⟨List.nodup_nil, by simp⟩
  | cons n rest ih =>
    obtain ⟨isNew, later⟩ := Bool.and_eq_true_iff.1 isFresh
    obtain ⟨nodup, unmarked⟩ := ih later
    simp only [Nat.testBit_or, Bool.or_eq_false_iff] at unmarked
    refine ⟨List.nodup_cons.2 ⟨fun again => ?_, nodup⟩, ?_⟩
    · have marked := (unmarked n again).2
      simp [Nat.testBit_shiftLeft] at marked
    · rintro m (_ | ⟨_, m⟩)
      · simpa using isNew
      · exact (unmarked _ ‹_›).1

theorem nodup_groupFingerprint : ((List.range 129).map groupFingerprint).Nodup := by
  -- the last fourteen bits of the fingerprints differ already
  have isFresh : fresh 0 (((List.range 129).map groupFingerprint).map (· % 2 ^ 14)) = true := by
    simp only [funext groupFingerprint_eq, storeUnaligned16, legacyFingerprintWithSeed,
      legacyFingerprint32WithSeed_pair]
    decide +kernel
  exact (nodup_of_fresh isFresh).1.of_map

/-- The characters of the two groups have different fingerprints. -/
theorem fingerprint_ne {s : LruStorage} (seed : s.seed = newStorage.seed) {i j : Nat}
    (isOne : i < 129) (isOther : j < 129) (differs : i ≠ j) :
    fingerprint s (UInt16.ofNat (0x2600 + i)) ≠ fingerprint s (UInt16.ofNat (0x2600 + j)) := by
  rw [fingerprint_congr seed]
  intro same
  exact differs (List.inj_on_of_nodup_map nodup_groupFingerprint (List.mem_range.2 isOne)
    (List.mem_range.2 isOther) (congrArg UInt64.toNat same))

/-- The characters of the second group. -/
def secondGroup : List UInt16 :=
  groupOf codes ((List.range 127).map fun i => UInt16.ofNat (0x2602 + i))

theorem mem_secondGroup {ucs2 : UInt16} :
    ucs2 ∈ secondGroup ↔ ∃ i, 2 ≤ i ∧ i < 129 ∧ UInt16.ofNat (0x2600 + i) = ucs2 := by
  rw [secondGroup, mem_groupOf]
  constructor
  · rintro ⟨-, _, inList, rfl⟩
    obtain ⟨i, less, rfl⟩ := List.mem_map.1 inList
    have few := List.mem_range.1 less
    refine ⟨i + 2, by omega, by omega, ?_⟩
    rw [show 0x2600 + (i + 2) = 0x2602 + i by omega]
    rfl
  · rintro ⟨i, more, less, rfl⟩
    have small : (UInt16.ofNat (0x2600 + i)).toNat = 0x2600 + i := by
      rw [UInt16.toNat_ofNat']
      omega
    refine ⟨fun zero => ?_, UInt16.ofNat (0x2600 + i), ?_, rfl⟩
    · rw [zero] at small
      change 0 = _ at small
      omega
    · refine List.mem_map.2 ⟨i - 2, List.mem_range.2 (by omega), ?_⟩
      rw [show 0x2602 + (i - 2) = 0x2600 + i by omega]

theorem length_secondGroup_le : secondGroup.length ≤ 127 := by
  refine (length_groupOf_le _).trans ((List.length_filter_le _ _).trans ?_)
  rw [List.length_map, List.length_map, List.length_range]

theorem firstGroup_eq : groupOf codes [0x2600, 0x2601] = [0x2600, 0x2601] := by decide

theorem mem_keys {entries : List (UInt64 × (ByteString × UInt32))} {fp : UInt64}
    {entry : ByteString × UInt32} (member : (fp, entry) ∈ entries) :
    fp ∈ entries.map Prod.fst :=
  List.mem_map_of_mem member

/-- The storage once the first group was saved: the second character is in front. -/
def firstSaved : LruStorage := insertAll 1 .halfWidth newStorage [0x2600, 0x2601]

theorem ready_firstSaved : Ready firstSaved ∧ firstSaved.seed = newStorage.seed ∧
    ∃ rest, firstSaved.entries = [(fingerprint newStorage 0x2601,
      (storeUnaligned32 CharacterForm.halfWidth.toUInt32, 1))] ++ rest := by
  have stored : IsStored .halfWidth := .inr rfl
  obtain ⟨ready, seed, -⟩ := ready_newStorage.insert stored (fingerprint newStorage 0x2600) 1
  obtain ⟨ready', seed', moved⟩ := ready.insert stored (fingerprint newStorage 0x2601) 1
  obtain ⟨rest, split⟩ := moved [] _ (List.nil_append _).symm (by decide)
  rw [firstSaved, insertAll, List.foldl_cons, List.foldl_cons, List.foldl_nil,
    fingerprint_congr seed]
  exact ⟨ready', seed'.trans seed, rest, split⟩

/-- The storage once both groups were saved. -/
def bothSaved : LruStorage := insertAll 2 .halfWidth firstSaved secondGroup

theorem firstSaved_lacks : storedForm firstSaved 0x2602 = none := by
  obtain ⟨ready, seed, -⟩ := ready_firstSaved
  refine storedForm_eq_none (fun entry member => ?_) ready
  have isKey : fingerprint firstSaved 0x2602 ∈
      (insertAll 1 .halfWidth newStorage [0x2600, 0x2601]).entries.map Prod.fst :=
    mem_keys member
  rcases keys_insertAll (.inr rfl) 1 ready_newStorage isKey with first | old
  · rw [← fingerprint_congr seed] at first
    rcases List.mem_pair.1 first with same | same
    · exact fingerprint_ne seed (i := 2) (j := 0) (by omega) (by omega) (by omega) same
    · exact fingerprint_ne seed (i := 2) (j := 1) (by omega) (by omega) (by omega) same
  · rw [entries_newStorage] at old
    cases old

/-- The second character of the first group is left, and the first one is not. -/
theorem bothSaved_spec : Ready bothSaved ∧ storedForm bothSaved 0x2601 = some .halfWidth ∧
    storedForm bothSaved 0x2600 = none := by
  obtain ⟨ready, seed, rest, split⟩ := ready_firstSaved
  have stored : IsStored .halfWidth := .inr rfl
  have few := length_secondGroup_le
  have fits : secondGroup.length ≤ kLruSize := few.trans (by decide)
  have ready' : Ready bothSaved := (storedForm_insertAll ready stored 2 fits).1
  have all : ∀ ucs2 ∈ secondGroup, storedForm bothSaved ucs2 = some .halfWidth :=
    (storedForm_insertAll ready stored 2 fits).2
  have unchanged : bothSaved.seed = firstSaved.seed :=
    (ready.insertAll stored 2 (List.nil_append firstSaved.entries).symm (List.forall_mem_nil _)
      (by rwa [List.length_nil, Nat.zero_add])).2.1
  have seed' : bothSaved.seed = newStorage.seed := unchanged.trans seed
  have left : (fingerprint newStorage 0x2601, (storeUnaligned32 CharacterForm.halfWidth.toUInt32, 1))
      ∈ bothSaved.entries := by
    have room : ([(fingerprint newStorage 0x2601,
        (storeUnaligned32 CharacterForm.halfWidth.toUInt32, (1 : UInt32)))].length +
          secondGroup.length) ≤ kLruSize := by
      rw [List.length_singleton]
      unfold kLruSize
      omega
    refine insertAll_keeps stored 2 ready split room List.mem_cons_self ?_
    intro member
    obtain ⟨ucs2, inSecond, same⟩ := List.mem_map.1 member
    obtain ⟨i, more, less, rfl⟩ := mem_secondGroup.1 inSecond
    rw [← fingerprint_congr seed, show (0x2601 : UInt16) = UInt16.ofNat (0x2600 + 1) from rfl] at same
    dsimp only at same
    exact fingerprint_ne seed less (by omega) (by omega) same
  have isLeft : storedForm bothSaved 0x2601 = some .halfWidth := by
    rw [storedForm, fingerprint_congr seed', ready'.linked.lookup_eq_some_iff.2 left,
      Option.map_some, loadUnaligned32At_storeUnaligned32, ofUInt32_toUInt32]
  refine ⟨ready', isLeft, storedForm_eq_none (fun entry member => ?_) ready'⟩
  -- one key more than there is room for
  have isKey : ∀ i < 129, fingerprint bothSaved (UInt16.ofNat (0x2600 + i)) ∈
      bothSaved.entries.map Prod.fst := by
    intro i less
    rcases Nat.lt_or_ge i 2 with isFirst | isSecond
    · rcases Nat.lt_or_ge i 1 with isZero | isOne
      · obtain rfl : i = 0 := by omega
        exact mem_keys member
      · obtain rfl : i = 1 := by omega
        rw [fingerprint_congr seed']
        exact mem_keys left
    · have isStored := all _ (mem_secondGroup.2 ⟨i, isSecond, less, rfl⟩)
      obtain ⟨entry, found, -⟩ := Option.map_eq_some_iff.1 isStored
      exact mem_keys (ready'.linked.lookup_eq_some_iff.1 found)
  have distinct : ((List.range 129).map fun i =>
      fingerprint bothSaved (UInt16.ofNat (0x2600 + i))).Nodup := by
    refine List.Nodup.map_on ?_ (List.nodup_range)
    intro i isOne j isOther same
    by_contra differs
    exact fingerprint_ne seed' (List.mem_range.1 isOne) (List.mem_range.1 isOther) differs same
  have tooMany := (distinct.subperm fun fp inList => by
    obtain ⟨i, less, rfl⟩ := List.mem_map.1 inList
    exact isKey i (List.mem_range.1 less)).length_le
  have bound := ready'.length_entries_le
  rw [ready'.size] at bound
  rw [List.length_map, List.length_map, List.length_range] at tooMany
  exact absurd (tooMany.trans bound) (by decide)

/-- The first character has lost its form, and saving the second one does not give it back. -/
theorem pushedOut_reads {m : CharacterFormManager} (built : ofRules codes twoGroups = some m) :
    m.getCharacterForm codes (m.setCharacterForm codes 3 (m.run codes pushedOut) 0x2601 .halfWidth)
      0x2600 = .fullWidth := by
  have knows := knows_ofRules disjoint_twoGroups built
  have isFirst : ([0x2600, 0x2601], CharacterForm.lastForm) ∈ twoGroups := List.mem_cons_self
  have isSecond : ((List.range 127).map fun i => UInt16.ofNat (0x2602 + i),
      CharacterForm.lastForm) ∈ twoGroups := List.mem_cons_of_mem _ List.mem_cons_self
  have first0 : codes.getNormalizedCharacter 0x2600 ∈ groupOf codes [0x2600, 0x2601] := by
    decide
  have first1 : codes.getNormalizedCharacter 0x2601 ∈ groupOf codes [0x2600, 0x2601] := by
    decide
  have second2 : codes.getNormalizedCharacter 0x2602 ∈ secondGroup :=
    mem_secondGroup.2 ⟨2, by omega, by omega, rfl⟩
  have stored : IsStored .halfWidth := .inr rfl
  have notYet : storedForm newStorage 0x2600 ≠ some .halfWidth := by
    rw [storedForm_newStorage]
    exact (Option.some_ne_none _).symm
  have notYet' : storedForm firstSaved 0x2602 ≠ some .halfWidth := by
    rw [firstSaved_lacks]
    exact Option.some_ne_none _ ∘ Eq.symm
  have run : m.run codes pushedOut = bothSaved := by
    change m.setCharacterForm codes 2 (m.setCharacterForm codes 1 newStorage 0x2600 .halfWidth)
      0x2602 .halfWidth = _
    have saved : m.setCharacterForm codes 1 newStorage 0x2600 .halfWidth = firstSaved := by
      rw [firstSaved, ← firstGroup_eq]
      exact (knows.setCharacterForm_eq ready_newStorage 1 isFirst first0 stored).trans
        (if_neg notYet)
    rw [saved]
    exact (knows.setCharacterForm_eq ready_firstSaved.1 2 isSecond second2 stored).trans
      (if_neg notYet')
  obtain ⟨ready, isLeft, isLost⟩ := bothSaved_spec
  have same : m.setCharacterForm codes 3 bothSaved 0x2601 .halfWidth = bothSaved :=
    (knows.setCharacterForm_eq ready 3 isFirst first1 stored).trans (if_pos isLeft)
  rw [run, same]
  unfold getCharacterForm
  dsimp only
  rw [if_neg (mem_groupOf.1 first0).1, knows.form _ isFirst _ first0, getCharacterFormFromStorage_eq]
  change (storedForm bothSaved 0x2600).getD .fullWidth = _
  rw [isLost, Option.getD_none]

/-- **A character that is left of a group hides that the others are forgotten.** -/
theorem not_getCharacterForm_group : ¬ ∀ (rules : List (Rule UInt16)) (m : CharacterFormManager)
    (key : List UInt16) (str other : UInt16) (form : CharacterForm)
    (calls : List (UInt32 × Call UInt16)) (now : UInt32),
    DisjointGroups codes rules → ofRules codes rules = some m →
    (key, CharacterForm.lastForm) ∈ rules → codes.getNormalizedCharacter str ∈ groupOf codes key →
    codes.getNormalizedCharacter other ∈ groupOf codes key →
    (form = .fullWidth ∨ form = .halfWidth) →
    m.getCharacterForm codes (m.setCharacterForm codes now (m.run codes calls) str form) other =
      form := by
  intro together
  obtain ⟨m, built⟩ := Option.isSome_iff_exists.1 (by decide +kernel :
    (ofRules codes twoGroups).isSome = true)
  have isHalf := together twoGroups m [0x2600, 0x2601] 0x2601 0x2600 .halfWidth pushedOut 3
    disjoint_twoGroups built List.mem_cons_self (by decide) (by decide) (.inr rfl)
  rw [pushedOut_reads built] at isHalf
  cases isHalf

end CharacterFormManager

end Mozkey.Config
