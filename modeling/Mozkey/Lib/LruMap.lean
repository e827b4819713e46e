import Mathlib

/-!
# Bounded maps in order of use

A map with at most `capacity` keys, kept as the list of its elements in order of
use, the latest first.  An insertion moves its key to the front and, in a full
map, drops the last element.  Looking a key up or changing its value keeps the
order.

The keys of the list are pairwise different and the bound holds; both are part
of the type.
-/

namespace Mozkey.Lib

/-- A map of at most `capacity` elements, the latest used one first. -/
structure LruMap (κ α : Type*) (capacity : Nat) where
  elements : List (κ × α)
  nodup : (elements.map Prod.fst).Nodup
  bound : elements.length ≤ capacity

namespace LruMap

variable {κ α : Type*} {capacity : Nat}

def empty : LruMap κ α capacity := ⟨[], List.nodup_nil, Nat.zero_le _⟩

def size (m : LruMap κ α capacity) : Nat := m.elements.length

def keys (m : LruMap κ α capacity) : List κ := m.elements.map Prod.fst

def values (m : LruMap κ α capacity) : List α := m.elements.map Prod.snd

theorem keys_nodup (m : LruMap κ α capacity) : m.keys.Nodup := m.nodup

section Operations

variable [DecidableEq κ]

/-- The elements with other keys. -/
def others (key : κ) (elements : List (κ × α)) : List (κ × α) :=
  elements.filter fun e => e.1 ≠ key

theorem others_sublist (key : κ) (elements : List (κ × α)) :
    (others key elements).Sublist elements :=
  List.filter_sublist

theorem key_not_mem_others (key : κ) (elements : List (κ × α)) :
    key ∉ (others key elements).map Prod.fst := by
  intro member
  obtain ⟨e, kept, rfl⟩ := List.mem_map.1 member
  simp [others] at kept

def lookup (m : LruMap κ α capacity) (key : κ) : Option α := m.elements.lookup key

/-- The key moves to the front with the value.  A map that gets too long drops its
last element. -/
def insert (m : LruMap κ α capacity) (key : κ) (value : α) : LruMap κ α capacity where
  elements := ((key, value) :: others key m.elements).take capacity
  nodup := by
    refine List.Nodup.sublist ((List.take_sublist _ _).map Prod.fst) ?_
    rw [List.map_cons, List.nodup_cons]
    exact ⟨key_not_mem_others key m.elements,
      m.nodup.sublist ((others_sublist key m.elements).map Prod.fst)⟩
  bound := by
    rw [List.length_take]
    exact Nat.min_le_left _ _

/-- The value of a key is changed in place. -/
def modify (m : LruMap κ α capacity) (key : κ) (change : α → α) : LruMap κ α capacity where
  elements := m.elements.map fun e => if e.1 = key then (e.1, change e.2) else e
  nodup := by
    rw [List.map_map, show Prod.fst ∘ (fun e : κ × α => if e.1 = key then (e.1, change e.2) else e)
      = Prod.fst by funext e; dsimp only [Function.comp]; split <;> rfl]
    exact m.nodup
  bound := by
    rw [List.length_map]
    exact m.bound

def erase (m : LruMap κ α capacity) (key : κ) : LruMap κ α capacity where
  elements := others key m.elements
  nodup := m.nodup.sublist ((others_sublist key m.elements).map Prod.fst)
  bound := (others_sublist key m.elements).length_le.trans m.bound

/-- Only elements with some values are kept. -/
def restrict (m : LruMap κ α capacity) (keep : α → Bool) : LruMap κ α capacity where
  elements := m.elements.filter fun e => keep e.2
  nodup := m.nodup.sublist (List.filter_sublist.map Prod.fst)
  bound := List.filter_sublist.length_le.trans m.bound

theorem others_eq_self {key : κ} {elements : List (κ × α)}
    (absent : key ∉ elements.map Prod.fst) : others key elements = elements := by
  refine List.filter_eq_self.2 fun e member => decide_eq_true ?_
  intro same
  exact absent (same ▸ List.mem_map_of_mem member)

/-! ## What a lookup finds -/

theorem lookup_eq_some_iff (m : LruMap κ α capacity) {key : κ} {value : α} :
    m.lookup key = some value ↔ (key, value) ∈ m.elements := by
  obtain ⟨elements, nodup, bound⟩ := m
  rw [lookup]
  induction elements with
  | nil => simp
  | cons e rest ih =>
      obtain ⟨first, v⟩ := e
      have later := ih (List.nodup_cons.1 nodup).2 (Nat.le_of_succ_le bound)
      by_cases same : key = first
      · subst same
        rw [List.lookup_cons_self, List.mem_cons, Prod.mk.injEq, Option.some.injEq]
        constructor
        · exact fun found => .inl ⟨rfl, found.symm⟩
        · rintro (⟨-, found⟩ | member)
          · exact found.symm
          · exact absurd (List.mem_map_of_mem member) (List.nodup_cons.1 nodup).1
      · rw [List.lookup_cons, beq_false_of_ne same, List.mem_cons, Prod.mk.injEq]
        exact later.trans (by simp [same])

theorem lookup_eq_none_iff (m : LruMap κ α capacity) {key : κ} :
    m.lookup key = none ↔ key ∉ m.keys := by
  rw [Option.eq_none_iff_forall_ne_some, keys, List.mem_map]
  constructor
  · rintro missing ⟨e, member, rfl⟩
    exact missing e.2 (m.lookup_eq_some_iff.2 member)
  · intro absent value found
    exact absent ⟨_, m.lookup_eq_some_iff.1 found, rfl⟩

theorem mem_keys_iff (m : LruMap κ α capacity) {key : κ} :
    key ∈ m.keys ↔ ∃ value, m.lookup key = some value := by
  rw [← not_iff_not, ← m.lookup_eq_none_iff, Option.eq_none_iff_forall_ne_some, not_exists]

@[simp] theorem keys_modify (m : LruMap κ α capacity) (key : κ) (change : α → α) :
    (m.modify key change).keys = m.keys := by
  rw [keys, keys, modify, List.map_map]
  refine List.map_congr_left fun e _ => ?_
  rw [Function.comp]
  split <;> rfl

@[simp] theorem lookup_modify_self (m : LruMap κ α capacity) (key : κ) (change : α → α) :
    (m.modify key change).lookup key = (m.lookup key).map change := by
  have changed : ∀ elements : List (κ × α),
      (elements.map fun e => if e.1 = key then (e.1, change e.2) else e).lookup key
        = (elements.lookup key).map change := by
    intro elements
    induction elements with
    | nil => rfl
    | cons e rest ih =>
        rw [List.map_cons, List.lookup_cons, List.lookup_cons, ih]
        by_cases same : e.1 = key
        · rw [if_pos same, ← same, beq_self_eq_true]
          rfl
        · rw [if_neg same, beq_false_of_ne (Ne.symm same)]
  exact changed m.elements

theorem lookup_modify_of_ne (m : LruMap κ α capacity) {key other : κ} (change : α → α)
    (ne : other ≠ key) : (m.modify key change).lookup other = m.lookup other := by
  have kept : ∀ elements : List (κ × α),
      (elements.map fun e => if e.1 = key then (e.1, change e.2) else e).lookup other
        = elements.lookup other := by
    intro elements
    induction elements with
    | nil => rfl
    | cons e rest ih =>
        rw [List.map_cons, List.lookup_cons, List.lookup_cons, ih]
        by_cases same : e.1 = key
        · rw [if_pos same, same, beq_false_of_ne ne]
        · rw [if_neg same]
  exact kept m.elements

theorem lookup_modify (m : LruMap κ α capacity) (key other : κ) (change : α → α) :
    (m.modify key change).lookup other
      = if other = key then (m.lookup other).map change else m.lookup other := by
  split
  · rename_i same
    rw [same, lookup_modify_self]
  · rename_i ne
    exact m.lookup_modify_of_ne change ne

/-- An insertion may drop elements; those it leaves are the inserted one and old ones. -/
theorem lookup_of_lookup_insert (m : LruMap κ α capacity) {key other : κ} {value found : α}
    (stored : (m.insert key value).lookup other = some found) :
    other = key ∧ found = value ∨ other ≠ key ∧ m.lookup other = some found := by
  have member := List.mem_of_mem_take ((lookup_eq_some_iff _).1 stored)
  rcases List.mem_cons.1 member with first | later
  · exact .inl ⟨congrArg Prod.fst first, congrArg Prod.snd first⟩
  · obtain ⟨old, differs⟩ := List.mem_filter.1 later
    exact .inr ⟨of_decide_eq_true differs, m.lookup_eq_some_iff.2 old⟩

theorem others_length_of_mem {key : κ} {elements : List (κ × α)}
    (nodup : (elements.map Prod.fst).Nodup) (member : key ∈ elements.map Prod.fst) :
    (others key elements).length + 1 = elements.length := by
  induction elements with
  | nil => exact absurd member List.not_mem_nil
  | cons e rest ih =>
      rw [List.map_cons, List.nodup_cons] at nodup
      rcases List.mem_cons.1 member with same | later
      · subst same
        rw [others, List.filter_cons_of_neg (by simp), ← others, others_eq_self nodup.1,
          List.length_cons]
      · have ne : e.1 ≠ key := fun same => nodup.1 (same ▸ later)
        rw [others, List.filter_cons_of_pos (by simp [ne]), ← others, List.length_cons,
          List.length_cons, ih nodup.2 later]

/-- There is room for a key: it is in the map, or the map is not full. -/
def Room (m : LruMap κ α capacity) (key : κ) : Prop := key ∈ m.keys ∨ m.size < capacity

/-- Where there is room, an insertion drops nothing. -/
theorem elements_insert_of_room {m : LruMap κ α capacity} {key : κ} (room : m.Room key)
    (value : α) : (m.insert key value).elements = (key, value) :: others key m.elements := by
  refine List.take_of_length_le ?_
  rw [List.length_cons]
  rcases room with member | notFull
  · rw [others_length_of_mem m.nodup member]
    exact m.bound
  · have sublist := (others_sublist key m.elements).length_le
    rw [size] at notFull
    omega

/-- A full map drops its last element for a new key. -/
theorem elements_insert_of_full {m : LruMap κ α capacity} {key : κ} (absent : key ∉ m.keys)
    {front : List (κ × α)} {last : κ × α} (split : m.elements = front ++ [last])
    (full : m.size = capacity) (value : α) : (m.insert key value).elements = (key, value) :: front := by
  have length : front.length + 1 = capacity := by
    rw [← full, size, split]
    simp
  have whole : (m.insert key value).elements = ((key, value) :: others key m.elements).take capacity :=
    rfl
  rw [whole, others_eq_self absent, split, ← length, List.take_succ_cons, List.take_left]

theorem lookup_insert_of_room {m : LruMap κ α capacity} {key : κ} (room : m.Room key)
    (value : α) (other : κ) :
    (m.insert key value).lookup other = if other = key then some value else m.lookup other := by
  refine Option.ext fun found => ?_
  rw [lookup_eq_some_iff, elements_insert_of_room room, List.mem_cons, Prod.mk.injEq]
  by_cases same : other = key
  · subst same
    rw [if_pos rfl, Option.some.injEq]
    constructor
    · rintro (⟨-, rfl⟩ | later)
      · rfl
      · exact absurd (List.mem_map_of_mem later) (key_not_mem_others other m.elements)
    · exact fun found => .inl ⟨rfl, found.symm⟩
  · rw [if_neg same, lookup_eq_some_iff, others, List.mem_filter]
    simp [same]

/-- The latest used element stays. -/
theorem lookup_insert_self (m : LruMap κ α capacity) (some : 0 < capacity) (key : κ) (value : α) :
    (m.insert key value).lookup key = .some value := by
  rw [lookup_eq_some_iff, insert, List.mem_take_iff_getElem]
  refine ⟨0, ?_, rfl⟩
  rw [List.length_cons]
  omega

theorem lookup_erase (m : LruMap κ α capacity) (key other : κ) :
    (m.erase key).lookup other = if other = key then none else m.lookup other := by
  refine Option.ext fun found => ?_
  have kept : (other, found) ∈ (m.erase key).elements
      ↔ (other, found) ∈ m.elements ∧ decide (other ≠ key) = true := List.mem_filter
  rw [lookup_eq_some_iff, kept]
  by_cases same : other = key
  · simp [same]
  · rw [if_neg same, lookup_eq_some_iff]
    simp [same]

/-- The latest used elements stay, as long as they are fewer than the capacity. -/
theorem insert_front {m : LruMap κ α capacity} {front rest : List (κ × α)}
    (split : m.elements = front ++ rest) (short : front.length < capacity) (key : κ) (value : α) :
    ∃ rest', (m.insert key value).elements = ((key, value) :: others key front) ++ rest' := by
  have whole : (m.insert key value).elements = ((key, value) :: others key m.elements).take capacity :=
    rfl
  have kept : ((key, value) :: others key front).length ≤ capacity :=
    (Nat.succ_le_succ (others_sublist key front).length_le).trans short
  have parts : others key (front ++ rest) = others key front ++ others key rest :=
    List.filter_append _ _
  rw [whole, split, parts, ← List.cons_append, List.take_append, List.take_of_length_le kept]
  exact ⟨_, rfl⟩

/-- Where there is no room for more, all keys are known. -/
theorem room_of_keys_subset {m : LruMap κ α capacity} {known : Finset κ}
    (subset : m.keys.toFinset ⊆ known) (fits : known.card ≤ capacity) {key : κ}
    (isKnown : key ∈ known) : m.Room key := by
  by_cases member : key ∈ m.keys
  · exact .inl member
  · refine .inr ?_
    have fewer : m.keys.toFinset ⊂ known :=
      (Finset.ssubset_iff_of_subset subset).2
        ⟨key, isKnown, fun isMember => member (List.mem_toFinset.1 isMember)⟩
    have less := Finset.card_lt_card fewer
    rw [List.toFinset_card_of_nodup m.keys_nodup, keys, List.length_map] at less
    exact less.trans_le fits

theorem keys_insert (m : LruMap κ α capacity) (key : κ) (value : α) :
    (m.insert key value).keys = (key :: m.keys.filter (· ≠ key)).take capacity := by
  rw [keys, keys, insert, List.map_take, List.map_cons, others, List.filter_map]
  rfl

theorem keys_insert_subset (m : LruMap κ α capacity) (key : κ) (value : α) :
    (m.insert key value).keys.toFinset ⊆ Insert.insert key m.keys.toFinset := by
  intro other member
  obtain ⟨found, stored⟩ := mem_keys_iff _ |>.1 (List.mem_toFinset.1 member)
  rcases m.lookup_of_lookup_insert stored with ⟨same, -⟩ | ⟨-, old⟩
  · exact Finset.mem_insert.2 (.inl same)
  · exact Finset.mem_insert.2 (.inr (List.mem_toFinset.2 (m.mem_keys_iff.2 ⟨found, old⟩)))

/-- Where the oldest element is not used again, an insertion drops it or keeps it the oldest. -/
theorem insert_oldest {m : LruMap κ α capacity} {key oldest : κ}
    (isOldest : m.keys.getLast? = some oldest) (ne : key ≠ oldest) (value : α) :
    (m.insert key value).lookup oldest = none ∨
      (m.insert key value).keys.getLast? = some oldest ∧
        (m.insert key value).keys.toFinset = Insert.insert key m.keys.toFinset := by
  obtain ⟨front, keys_eq⟩ := List.getLast?_eq_some_iff.1 isOldest
  by_cases room : m.Room key
  · right
    have keys_insert : (m.insert key value).keys = key :: m.keys.filter (· ≠ key) := by
      rw [keys, elements_insert_of_room room, List.map_cons, others, keys, List.filter_map]
      rfl
    constructor
    · rw [keys_insert, keys_eq, List.filter_append,
        List.filter_cons_of_pos (by simpa using Ne.symm ne), List.filter_nil, ← List.cons_append]
      exact List.getLast?_concat
    · rw [keys_insert]
      ext other
      by_cases same : other = key <;> simp [same]
  · left
    obtain ⟨absent, full⟩ := not_or.1 room
    obtain ⟨front', last, elements_eq⟩ : ∃ front' last, m.elements = front' ++ [last] := by
      rcases List.eq_nil_or_concat m.elements with isNil | ⟨front', last, elements_eq⟩
      · rw [keys, isNil] at keys_eq
        simp at keys_eq
      · exact ⟨front', last, by rw [elements_eq, List.concat_eq_append]⟩
    have parts : front'.map Prod.fst = front ∧ [last.1] = [oldest] := by
      rw [keys, elements_eq, List.map_append] at keys_eq
      exact List.append_inj' keys_eq rfl
    have nodup := m.keys_nodup
    rw [keys_eq, List.nodup_append] at nodup
    rw [lookup_eq_none_iff, keys,
      elements_insert_of_full absent elements_eq (le_antisymm m.bound (Nat.not_lt.1 full)),
      List.map_cons, parts.1, List.mem_cons, not_or]
    exact ⟨Ne.symm ne, fun member => nodup.2.2 _ member _ (List.mem_singleton_self _) rfl⟩

/-- An insertion adds an element, and drops others. -/
theorem insert_sublist (m : LruMap κ α capacity) (key : κ) (value : α) :
    (m.insert key value).elements.Sublist ((key, value) :: m.elements) :=
  (List.take_sublist _ _).trans ((others_sublist key m.elements).cons_cons _)

/-- The last element has a key of its own. -/
theorem others_last {front : List (κ × α)} {last : κ × α}
    (nodup : ((front ++ [last]).map Prod.fst).Nodup) : others last.1 (front ++ [last]) = front := by
  rw [List.map_append, List.nodup_append] at nodup
  have absent : last.1 ∉ front.map Prod.fst := by
    intro member
    exact nodup.2.2 _ member _ (by simp) rfl
  have kept := others_eq_self absent
  rw [others] at kept ⊢
  rw [List.filter_append, kept]
  simp

end Operations

/-! ## Other keys -/

section Rekey

variable {ι : Type*} {f : κ → ι} {known : Set κ}

/-- The elements with the keys replaced. -/
def rekey (f : κ → ι) (elements : List (κ × α)) : List (ι × α) :=
  elements.map fun e => (f e.1, e.2)

variable [DecidableEq κ] [DecidableEq ι] (distinct : Set.InjOn f known) {elements : List (κ × α)}
  (within : ∀ e ∈ elements, e.1 ∈ known) {key : κ} (isKnown : key ∈ known)
include distinct within isKnown

theorem others_rekey : others (f key) (rekey f elements) = rekey f (others key elements) := by
  rw [others, rekey, List.filter_map]
  apply congrArg (List.map _)
  apply List.filter_congr
  intro e member
  have same : f e.1 = f key ↔ e.1 = key :=
    distinct.eq_iff (within e member) isKnown
  simp [same]

theorem lookup_rekey : (rekey f elements).lookup (f key) = elements.lookup key := by
  induction elements with
  | nil => rfl
  | cons e elements ih =>
      have later := ih fun other member => within other (List.mem_cons_of_mem _ member)
      have first := within e List.mem_cons_self
      rw [rekey, List.map_cons, List.lookup_cons, List.lookup_cons]
      by_cases same : key = e.1
      · simp [same]
      · have differs : f key ≠ f e.1 := fun equal => same (distinct isKnown first equal)
        rw [beq_false_of_ne same, beq_false_of_ne differs]
        exact later

omit isKnown [DecidableEq κ] [DecidableEq ι] in
theorem nodup_rekey (nodup : (elements.map Prod.fst).Nodup) :
    ((rekey f elements).map Prod.fst).Nodup := by
  have keys : (rekey f elements).map Prod.fst = (elements.map Prod.fst).map f := by
    rw [rekey, List.map_map, List.map_map]
    rfl
  rw [keys]
  apply nodup.map_on
  intro first inFirst second inSecond same
  obtain ⟨e, member, rfl⟩ := List.mem_map.1 inFirst
  obtain ⟨e', member', rfl⟩ := List.mem_map.1 inSecond
  exact distinct (within e member) (within e' member') same

end Rekey

section Rekeyed

variable {ι : Type*} {f : κ → ι} {known : Set κ}

/-- The map with the keys replaced by different ones. -/
def rekeyed (m : LruMap κ α capacity) (distinct : Set.InjOn f known)
    (within : ∀ e ∈ m.elements, e.1 ∈ known) : LruMap ι α capacity where
  elements := rekey f m.elements
  nodup := nodup_rekey distinct within m.nodup
  bound := (List.length_map _).le.trans m.bound

variable [DecidableEq κ] [DecidableEq ι] {m : LruMap κ α capacity} {distinct : Set.InjOn f known}
  {within : ∀ e ∈ m.elements, e.1 ∈ known}

theorem lookup_rekeyed {key : κ} (isKnown : key ∈ known) :
    (m.rekeyed distinct within).lookup (f key) = m.lookup key :=
  lookup_rekey distinct within isKnown

theorem elements_insert_rekeyed {key : κ} (isKnown : key ∈ known) (value : α) :
    ((m.rekeyed distinct within).insert (f key) value).elements =
      rekey f (m.insert key value).elements := by
  have others := others_rekey distinct within isKnown
  have whole : ((m.rekeyed distinct within).insert (f key) value).elements =
      ((f key, value) :: LruMap.others (f key) (rekey f m.elements)).take capacity := rfl
  rw [whole, others, insert, rekey, rekey, List.map_take, List.map_cons]

theorem elements_erase_rekeyed {key : κ} (isKnown : key ∈ known) :
    ((m.rekeyed distinct within).erase (f key)).elements = rekey f (m.erase key).elements :=
  others_rekey distinct within isKnown

omit [DecidableEq κ] [DecidableEq ι] in
theorem filter_rekey (keep : α → Bool) (elements : List (κ × α)) :
    (rekey f elements).filter (fun e => keep e.2) = rekey f (elements.filter fun e => keep e.2) := by
  rw [rekey, rekey, List.filter_map]
  rfl

end Rekeyed

end LruMap

end Mozkey.Lib
