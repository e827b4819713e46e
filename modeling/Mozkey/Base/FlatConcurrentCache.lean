import Mathlib

/-!
# The cache `FlatConcurrentCache`

Entries are kept in buckets of a few slots.  An entry's clock is set when the entry is stored, found
or overwritten; when a bucket is full, the entry with the smallest clock is evicted, the first one
of those that have it.  Only a hit counts the clock of the bucket up: an entry that is stored gets
the same clock as the last one.

Keys are unique in a bucket, and what is found is what was stored last.  **`disciplined_iff`** says
when the entry that was used last survives the next insertion.
-/

namespace Mozkey

namespace FlatConcurrentCache

variable {Key Value : Type} [DecidableEq Key]

/-! ## Buckets -/

/-- One index of the arrays of a `Bucket`. -/
structure Slot (Key Value : Type) where
  subhash : UInt64
  accessClock : Nat
  key : Key
  value : Value

/-- `Bucket`; `num` is the number of slots, and the clocks are of 8 bits. -/
structure Bucket (Key Value : Type) where
  slots : List (Slot Key Value)
  accessClockVal : Nat

def Slot.setClock (slot : Slot Key Value) (clock : Nat) : Slot Key Value :=
  { slot with accessClock := clock }

def Slot.setValue (slot : Slot Key Value) (value : Value) : Slot Key Value :=
  { slot with value := value }

/-- The keys of a bucket. -/
def Bucket.keys (bucket : Bucket Key Value) : List Key := bucket.slots.map Slot.key

/-- `FindIndex`. -/
def Bucket.findIndex (bucket : Bucket Key Value) (key : Key) (hash : UInt64) : Option Nat :=
  bucket.slots.findIdx? fun slot => decide (slot.subhash = hash ∧ key = slot.key)

/-- `UpdateClock`. -/
def Bucket.updateClock (bucket : Bucket Key Value) (index : Nat) : Bucket Key Value :=
  let clock := (bucket.accessClockVal + 1) % 2 ^ 8
  if clock = 255 then
    let halved := bucket.slots.map fun slot => slot.setClock (slot.accessClock >>> 1)
    { slots := halved.modify index fun slot => slot.setClock 128, accessClockVal := 128 }
  else
    { slots := bucket.slots.modify index fun slot => slot.setClock clock, accessClockVal := clock }

/-- The loop of `Evict`: the first index with the smallest clock. -/
def minIndex (clocks : List Nat) : Nat :=
  (List.range' 1 (clocks.length - 1)).foldl
    (fun min i => if clocks.getD i 0 < clocks.getD min 0 then i else min) 0

/-- `Evict`. -/
def Bucket.evict (bucket : Bucket Key Value) (groupSize : Nat) : Nat :=
  if bucket.slots.length < groupSize then bucket.slots.length
  else minIndex (bucket.slots.map Slot.accessClock)

/-- A slot is constructed at an index, which is that of a destroyed one or the next. -/
def Bucket.construct (bucket : Bucket Key Value) (index : Nat) (slot : Slot Key Value) :
    Bucket Key Value :=
  { bucket with slots := bucket.slots.take index ++ slot :: bucket.slots.drop (index + 1) }

/-! ## The cache -/

/-- What a cache is built with. -/
structure Config (Key : Type) where
  groupSize : Nat
  numBuckets : UInt64
  hasher : Key → UInt64

variable (config : Config Key)

/-- The first half of `GetBucket`. -/
def Config.subhash (key : Key) : UInt64 := config.hasher key &&& 0xFF

/-- The second half of `GetBucket`. -/
def Config.bucketOf (key : Key) : Nat :=
  let hash := config.hasher key
  (((hash >>> 8) ||| (hash <<< 56)) &&& (config.numBuckets - 1)).toNat

/-- `Lookup`. -/
def lookup (buckets : Nat → Bucket Key Value) (key : Key) :
    Option Value × (Nat → Bucket Key Value) :=
  let home := config.bucketOf key
  let bucket := buckets home
  match bucket.findIndex key (config.subhash key) with
  | some i => (bucket.slots[i]?.map Slot.value, Function.update buckets home (bucket.updateClock i))
  | none => (none, buckets)

/-- `Insert`, in the bucket of the key. -/
def Bucket.insert (bucket : Bucket Key Value) (groupSize : Nat) (hash : UInt64) (key : Key)
    (value : Value) : Bucket Key Value :=
  match bucket.findIndex key hash with
  | some i =>
      let bucket := { bucket with slots := bucket.slots.modify i fun slot => slot.setValue value }
      bucket.updateClock i
  | none => bucket.construct (bucket.evict groupSize) ⟨hash, bucket.accessClockVal, key, value⟩

/-- `Insert`. -/
def insert (buckets : Nat → Bucket Key Value) (key : Key) (value : Value) :
    Nat → Bucket Key Value :=
  let home := config.bucketOf key
  Function.update buckets home
    ((buckets home).insert config.groupSize (config.subhash key) key value)

/-! ## Runs -/

inductive Op (Key Value : Type)
  | insert (key : Key) (value : Value)
  | lookup (key : Key)

/-- A cache, with what was stored for each key last and which key of each bucket was used last. -/
structure Watched (Key Value : Type) where
  buckets : Nat → Bucket Key Value
  latest : Key → Option Value
  recent : Nat → Option Key

/-- A cache without entries. -/
def Watched.start : Watched Key Value := ⟨fun _ => ⟨[], 0⟩, fun _ => none, fun _ => none⟩

/-- One operation, watched. -/
def Watched.step (w : Watched Key Value) : Op Key Value → Watched Key Value
  | .insert key value =>
      { buckets := insert config w.buckets key value
        latest := Function.update w.latest key (some value)
        recent := Function.update w.recent (config.bucketOf key) (some key) }
  | .lookup key =>
      let (found, buckets) := lookup config w.buckets key
      { w with
        buckets
        recent := if found.isSome then Function.update w.recent (config.bucketOf key) (some key)
          else w.recent }

/-- A property of the states and the operations of a run. -/
def Along (property : Watched Key Value → Op Key Value → Prop) :
    Watched Key Value → List (Op Key Value) → Prop
  | _, [] => True
  | w, op :: ops => property w op ∧ Along property (w.step config op) ops

/-- **The discipline of buckets**: keys are unique, what is found is what was stored last, and the
entry of a bucket that was used last is still there after the next insertion. -/
structure Disciplined (w : Watched Key Value) (op : Op Key Value) : Prop where
  unique : ∀ b, ((w.step config op).buckets b).keys.Nodup
  latest : ∀ key, op = .lookup key → ∀ value, (lookup config w.buckets key).1 = some value →
    w.latest key = some value
  survives : ∀ key value, op = .insert key value → ∀ used,
    w.recent (config.bucketOf key) = some used →
      used ∈ ((w.step config op).buckets (config.bucketOf key)).keys

/-- An insertion that has to evict finds an entry whose clock is behind that of the bucket, or else
the entry that was used last in another slot than the first. -/
def Apart (w : Watched Key Value) : Op Key Value → Prop
  | .insert key _ =>
      let bucket := w.buckets (config.bucketOf key)
      key ∈ bucket.keys ∨ bucket.slots.length < config.groupSize ∨
        (∃ slot ∈ bucket.slots, slot.accessClock < bucket.accessClockVal) ∨
        bucket.keys.head? ≠ w.recent (config.bucketOf key)
  | .lookup _ => True

instance (w : Watched Key Value) (op : Op Key Value) : Decidable (Apart config w op) := by
  cases op with
  | insert key value =>
      unfold Apart
      infer_instance
  | lookup key => exact isTrue trivial

instance decidableAlong : ∀ (w : Watched Key Value) (ops : List (Op Key Value)),
    Decidable (Along config (Apart config) w ops)
  | _, [] => isTrue trivial
  | w, op :: ops =>
      have := decidableAlong (w.step config op) ops
      inferInstanceAs (Decidable (_ ∧ _))

/-! ## The smallest clock -/

/-- The first index with the smallest clock. -/
structure IsFirstMin (clocks : List Nat) (n min : Nat) : Prop where
  inside : min < n
  least : ∀ i < n, clocks.getD min 0 ≤ clocks.getD i 0
  first : ∀ i < min, clocks.getD min 0 < clocks.getD i 0

theorem isFirstMin_loop (clocks : List Nat) (n : Nat) :
    IsFirstMin clocks (n + 1) ((List.range' 1 n).foldl
      (fun min i => if clocks.getD i 0 < clocks.getD min 0 then i else min) 0) := by
  induction n with
  | zero =>
      refine ⟨Nat.one_pos, fun i less => ?_, fun i less => absurd less (Nat.not_lt_zero i)⟩
      rw [Nat.lt_one_iff.1 less]
      exact Nat.le_refl _
  | succ n ih =>
      rw [List.range'_1_concat, List.foldl_append, List.foldl_cons, List.foldl_nil]
      generalize (List.range' 1 n).foldl _ 0 = min at ih ⊢
      rw [Nat.add_comm 1 n]
      obtain ⟨inside, least, first⟩ := ih
      by_cases smaller : clocks.getD (n + 1) 0 < clocks.getD min 0
      · rw [if_pos smaller]
        refine ⟨Nat.lt_succ_self _, fun i less => ?_, fun i less => ?_⟩
        · rcases Nat.lt_succ_iff_lt_or_eq.1 less with before | rfl
          · exact Nat.le_of_lt (Nat.lt_of_lt_of_le smaller (least i before))
          · exact Nat.le_refl _
        · exact Nat.lt_of_lt_of_le smaller (least i less)
      · rw [if_neg smaller]
        refine ⟨Nat.lt_succ_of_lt inside, fun i less => ?_, first⟩
        rcases Nat.lt_succ_iff_lt_or_eq.1 less with before | rfl
        · exact least i before
        · exact Nat.le_of_not_lt smaller

theorem minIndex_spec {clocks : List Nat} (nonempty : clocks ≠ []) :
    IsFirstMin clocks clocks.length (minIndex clocks) := by
  have positive : 0 < clocks.length := List.length_pos_of_ne_nil nonempty
  have spec := isFirstMin_loop clocks (clocks.length - 1)
  rwa [Nat.sub_add_cancel positive] at spec

/-! ## What the slots of a bucket hold -/

/-- The slots of a bucket are right: each key once and in its own bucket, with what was stored for it
last, and no clock is ahead of that of the bucket. -/
structure Right (latest : Key → Option Value) (home clock : Nat) (slots : List (Slot Key Value)) :
    Prop where
  unique : (slots.map Slot.key).Nodup
  subhash : ∀ slot ∈ slots, slot.subhash = config.subhash slot.key
  atHome : ∀ slot ∈ slots, config.bucketOf slot.key = home
  values : ∀ slot ∈ slots, latest slot.key = some slot.value
  clocks : ∀ slot ∈ slots, slot.accessClock ≤ clock
  notOver : clock ≤ 254

section
variable {config : Config Key} {latest : Key → Option Value} {home clock : Nat}
  {slots front back : List (Slot Key Value)} {slot : Slot Key Value}

omit [DecidableEq Key] in
theorem Right.sublist {slots' : List (Slot Key Value)} (right : Right config latest home clock slots)
    (sublist : slots'.Sublist slots) : Right config latest home clock slots' :=
  ⟨right.unique.sublist (sublist.map _), fun slot member => right.subhash slot (sublist.subset member),
    fun slot member => right.atHome slot (sublist.subset member),
    fun slot member => right.values slot (sublist.subset member),
    fun slot member => right.clocks slot (sublist.subset member), right.notOver⟩

/-- One slot is added. -/
theorem Right.place (right : Right config latest home clock (front ++ back)) (new : Slot Key Value)
    (isNew : new.key ∉ (front ++ back).map Slot.key) (subhash : new.subhash = config.subhash new.key)
    (atHome : config.bucketOf new.key = home) (isClock : new.accessClock = clock) :
    Right config (Function.update latest new.key (some new.value)) home clock
      (front ++ new :: back) := by
  have all {p : Slot Key Value → Prop} (others : ∀ slot ∈ front ++ back, p slot) (one : p new) :
      ∀ slot ∈ front ++ new :: back, p slot := by
    intro slot member
    rcases List.mem_cons.1 (List.perm_middle.mem_iff.1 member) with rfl | other
    · exact one
    · exact others slot other
  refine ⟨?_, all right.subhash subhash, all right.atHome atHome, all ?_ (Function.update_self ..),
    all right.clocks (Nat.le_of_eq isClock), right.notOver⟩
  · have perm : (front ++ new :: back).Perm (new :: (front ++ back)) := List.perm_middle
    rw [(perm.map Slot.key).nodup_iff, List.map_cons, List.nodup_cons]
    exact ⟨isNew, right.unique⟩
  · intro slot member
    rw [Function.update_of_ne, right.values slot member]
    intro same
    exact isNew (same ▸ List.mem_map_of_mem member)

/-- What is stored for the keys of other buckets does not matter. -/
theorem Right.update (right : Right config latest home clock slots) {key : Key}
    (elsewhere : config.bucketOf key ≠ home) (value : Option Value) :
    Right config (Function.update latest key value) home clock slots := by
  obtain ⟨unique, subhash, atHome, values, clocks, notOver⟩ := right
  refine ⟨unique, subhash, atHome, fun slot member => ?_, clocks, notOver⟩
  rw [Function.update_of_ne, values slot member]
  rintro rfl
  exact elsewhere (atHome slot member)

omit [DecidableEq Key] in
/-- Clocks may be set in all slots. -/
theorem Right.map (right : Right config latest home clock slots)
    (aged : Slot Key Value → Slot Key Value)
    (entry : ∀ slot, (aged slot).key = slot.key ∧ (aged slot).subhash = slot.subhash ∧
      (aged slot).value = slot.value) (clock' : Nat)
    (clocks : ∀ slot ∈ slots, (aged slot).accessClock ≤ clock') (notOver : clock' ≤ 254) :
    Right config latest home clock' (slots.map aged) := by
  have keys : (slots.map aged).map Slot.key = slots.map Slot.key := by
    rw [List.map_map]
    exact List.map_congr_left fun slot _ => (entry slot).1
  refine ⟨keys ▸ right.unique, ?_, ?_, ?_, ?_, notOver⟩
  all_goals
    rw [List.forall_mem_map]
    intro slot member
  · rw [(entry slot).1, (entry slot).2.1]
    exact right.subhash slot member
  · rw [(entry slot).1]
    exact right.atHome slot member
  · rw [(entry slot).1, (entry slot).2.2]
    exact right.values slot member
  · exact clocks slot member

omit [DecidableEq Key] in
theorem modify_middle (front back : List (Slot Key Value)) (slot : Slot Key Value)
    (change : Slot Key Value → Slot Key Value) :
    (front ++ slot :: back).modify front.length change = front ++ change slot :: back := by
  induction front with
  | nil => rfl
  | cons first front ih =>
      rw [List.cons_append, List.length_cons, List.modify_succ_cons, ih, List.cons_append]

omit [DecidableEq Key] in
/-- The slot at an index is touched, and the others may be aged. -/
theorem updateClock_spec (slot : Slot Key Value)
    (right : Right config latest home clock (front ++ back)) :
    ∃ front' back' clock',
      Bucket.updateClock ⟨front ++ slot :: back, clock⟩ front.length =
        ⟨front' ++ slot.setClock clock' :: back', clock'⟩ ∧
      front'.map Slot.key = front.map Slot.key ∧ back'.map Slot.key = back.map Slot.key ∧
      Right config latest home clock' (front' ++ back') := by
  have notOver := right.notOver
  have next : (clock + 1) % 2 ^ 8 = clock + 1 := Nat.mod_eq_of_lt (by omega)
  unfold Bucket.updateClock
  rw [next]
  by_cases saturated : clock + 1 = 255
  · let halve : Slot Key Value → Slot Key Value := fun slot => slot.setClock (slot.accessClock >>> 1)
    have keys : ∀ slots : List (Slot Key Value), (slots.map halve).map Slot.key = slots.map Slot.key := by
      intro slots
      rw [List.map_map]
      rfl
    refine ⟨front.map halve, back.map halve, 128, ?_, keys front, keys back, ?_⟩
    · dsimp only
      have length : (front.map halve).length = front.length := List.length_map _
      rw [if_pos saturated, List.map_append, List.map_cons, ← length, modify_middle]
      rfl
    · rw [← List.map_append]
      refine right.map halve (fun slot => ⟨rfl, rfl, rfl⟩) 128 (fun slot member => ?_) (by decide)
      have half : (halve slot).accessClock = slot.accessClock / 2 := Nat.shiftRight_one _
      have before := right.clocks slot member
      omega
  · refine ⟨front, back, clock + 1, ?_, rfl, rfl, ?_⟩
    · dsimp only
      rw [if_neg saturated, modify_middle]
    · have later := right.map id (fun slot => ⟨rfl, rfl, rfl⟩) (clock + 1)
        (fun slot member => Nat.le_succ_of_le (right.clocks slot member)) (by omega)
      rwa [List.map_id] at later

/-- Where a key is found. -/
theorem findIndex_some {bucket : Bucket Key Value} {key : Key} {hash : UInt64} {i : Nat}
    (found : bucket.findIndex key hash = some i) :
    ∃ front slot back, bucket.slots = front ++ slot :: back ∧ front.length = i ∧ slot.key = key := by
  obtain ⟨inside, isKey, -⟩ := List.findIdx?_eq_some_iff_getElem.1 found
  refine ⟨bucket.slots.take i, bucket.slots.get ⟨i, inside⟩, bucket.slots.drop (i + 1), by simp,
    by simp; omega, ?_⟩
  exact (of_decide_eq_true isKey).2.symm

theorem findIndex_none {bucket : Bucket Key Value}
    (right : Right config latest home clock bucket.slots) {key : Key}
    (missing : bucket.findIndex key (config.subhash key) = none) : key ∉ bucket.keys := by
  intro member
  obtain ⟨slot, inSlots, rfl⟩ := List.mem_map.1 member
  have other := List.findIdx?_eq_none_iff.1 missing slot inSlots
  rw [decide_eq_false_iff_not] at other
  exact other ⟨right.subhash slot inSlots, rfl⟩

/-! ## The entry that was used last -/

/-- The entry that was used last has the clock of the bucket. -/
inductive UsedLast (recent : Option Key) : Bucket Key Value → Prop
  | empty {clock : Nat} (unused : recent = none) : UsedLast recent ⟨[], clock⟩
  | used {front back : List (Slot Key Value)} {slot : Slot Key Value} {clock : Nat}
      (isKey : recent = some slot.key) (isClock : slot.accessClock = clock) :
      UsedLast recent ⟨front ++ slot :: back, clock⟩

/-- A key that is found is touched. -/
theorem touch_spec (right : Right config latest home clock (front ++ slot :: back))
    (touched : Slot Key Value) (isKey : touched.key = slot.key)
    (subhash : touched.subhash = slot.subhash) :
    ∃ bucket, Bucket.updateClock ⟨front ++ touched :: back, clock⟩ front.length = bucket ∧
      bucket.keys = (front ++ slot :: back).map Slot.key ∧
      Right config (Function.update latest slot.key (some touched.value)) home
        bucket.accessClockVal bucket.slots ∧
      UsedLast (some slot.key) bucket := by
  have others : Right config latest home clock (front ++ back) :=
    right.sublist (List.Sublist.append_left (List.sublist_cons_self slot back) front)
  have member : slot ∈ front ++ slot :: back := List.mem_append_right _ List.mem_cons_self
  obtain ⟨front', back', clock', result, keysFront, keysBack, right'⟩ :=
    updateClock_spec touched others
  have isNew : slot.key ∉ (front' ++ back').map Slot.key := by
    have unique := right.unique
    rw [(List.perm_middle.map Slot.key).nodup_iff, List.map_cons, List.nodup_cons] at unique
    rw [List.map_append, keysFront, keysBack, ← List.map_append]
    exact unique.1
  refine ⟨_, result, ?_, ?_, ?_⟩
  · rw [Bucket.keys, List.map_append, List.map_append, keysFront, List.map_cons, List.map_cons,
      keysBack]
    exact congrArg (fun key => front.map Slot.key ++ key :: back.map Slot.key) isKey
  · have placed := right'.place (touched.setClock clock') (by rwa [← isKey] at isNew)
      (subhash.trans ((right.subhash slot member).trans (by rw [← isKey]; rfl)))
      (by rw [← right.atHome slot member, ← isKey]; rfl) rfl
    rw [← isKey]
    exact placed
  · exact .used (congrArg some isKey.symm) rfl

/-! ## Inserting and looking up in a bucket -/

omit [DecidableEq Key] in
theorem construct_middle (front back : List (Slot Key Value)) (old new : Slot Key Value) (clock : Nat) :
    Bucket.construct ⟨front ++ old :: back, clock⟩ front.length new =
      ⟨front ++ new :: back, clock⟩ := by
  have behind : (front ++ old :: back).drop (front.length + 1) = back := by
    rw [List.append_cons]
    exact List.drop_left' (by simp)
  rw [Bucket.construct]
  dsimp only
  rw [List.take_left, behind]

omit [DecidableEq Key] in
theorem construct_last (slots : List (Slot Key Value)) (new : Slot Key Value) :
    Bucket.construct ⟨slots, clock⟩ slots.length new = ⟨slots ++ new :: [], clock⟩ := by
  rw [Bucket.construct]
  dsimp only
  rw [List.take_length, List.drop_eq_nil_of_le (Nat.le_succ _)]

omit [DecidableEq Key] in
/-- Which slot is evicted from a full bucket. -/
theorem evict_spec {bucket : Bucket Key Value} {groupSize : Nat} (nonempty : bucket.slots ≠ [])
    (full : ¬ bucket.slots.length < groupSize) :
    ∃ front old back, bucket.slots = front ++ old :: back ∧
      bucket.evict groupSize = front.length ∧
      (∀ slot ∈ bucket.slots, old.accessClock ≤ slot.accessClock) ∧
      ∀ slot ∈ front, old.accessClock < slot.accessClock := by
  have clocksNonempty : bucket.slots.map Slot.accessClock ≠ [] := by simpa using nonempty
  obtain ⟨inside, least, first⟩ := minIndex_spec clocksNonempty
  have evicted : bucket.evict groupSize = minIndex (bucket.slots.map Slot.accessClock) := if_neg full
  generalize minIndex (bucket.slots.map Slot.accessClock) = min at inside least first evicted
  rw [List.length_map] at inside least
  have clockAt (i : Nat) (less : i < bucket.slots.length) :
      (bucket.slots.map Slot.accessClock).getD i 0 = (bucket.slots.get ⟨i, less⟩).accessClock := by
    simp [List.getD_eq_getElem?_getD, less]
  refine ⟨bucket.slots.take min, bucket.slots.get ⟨min, inside⟩, bucket.slots.drop (min + 1),
    by simp, ?_, ?_, ?_⟩
  · rw [evicted, List.length_take, min_eq_left (Nat.le_of_lt inside)]
  · intro slot member
    obtain ⟨⟨i, less⟩, rfl⟩ := List.mem_iff_get.1 member
    rw [← clockAt, ← clockAt]
    exact least i less
  · intro slot member
    obtain ⟨i, less, rfl⟩ := List.mem_take_iff_getElem.1 member
    have before : i < min := Nat.lt_of_lt_of_le less (Nat.min_le_left _ _)
    have here := clockAt i (before.trans inside)
    rw [List.get_eq_getElem] at here
    rw [← here, ← clockAt]
    exact first i before

variable {bucket : Bucket Key Value} {key : Key} {groupSize : Nat}

/-- What an insertion does to a bucket. -/
inductive Inserted (bucket : Bucket Key Value) (groupSize : Nat) (hash : UInt64) (key : Key)
    (value : Value) : Bucket Key Value → Prop
  | overwritten {front back : List (Slot Key Value)} {slot : Slot Key Value}
      (isSlots : bucket.slots = front ++ slot :: back) (isKey : slot.key = key) :
      Inserted bucket groupSize hash key value
        (Bucket.updateClock ⟨front ++ slot.setValue value :: back, bucket.accessClockVal⟩ front.length)
  | added (isNew : key ∉ bucket.keys) (room : bucket.slots.length < groupSize) :
      Inserted bucket groupSize hash key value
        ⟨bucket.slots ++ ⟨hash, bucket.accessClockVal, key, value⟩ :: [], bucket.accessClockVal⟩
  | evicted {front back : List (Slot Key Value)} {old : Slot Key Value} (isNew : key ∉ bucket.keys)
      (full : ¬ bucket.slots.length < groupSize) (isSlots : bucket.slots = front ++ old :: back)
      (least : ∀ slot ∈ bucket.slots, old.accessClock ≤ slot.accessClock)
      (first : ∀ slot ∈ front, old.accessClock < slot.accessClock) :
      Inserted bucket groupSize hash key value
        ⟨front ++ ⟨hash, bucket.accessClockVal, key, value⟩ :: back, bucket.accessClockVal⟩

theorem insert_cases (right : Right config latest home clock bucket.slots) (some_ : 0 < groupSize)
    (key : Key) (value : Value) :
    Inserted bucket groupSize (config.subhash key) key value
      (bucket.insert groupSize (config.subhash key) key value) := by
  unfold Bucket.insert
  cases found : bucket.findIndex key (config.subhash key) with
  | some i =>
      obtain ⟨front, slot, back, isSlots, rfl, isKey⟩ := findIndex_some found
      dsimp only
      rw [isSlots, modify_middle]
      exact .overwritten isSlots isKey
  | none =>
      have isNew := findIndex_none right found
      dsimp only
      by_cases room : bucket.slots.length < groupSize
      · have last : bucket.evict groupSize = bucket.slots.length := if_pos room
        obtain ⟨slots, clock⟩ := bucket
        rw [last, construct_last]
        exact .added isNew room
      · have nonempty : bucket.slots ≠ [] := by
          rintro empty
          rw [empty] at room
          exact room some_
        obtain ⟨front, old, back, isSlots, evicted, least, first⟩ := evict_spec nonempty room
        have result := construct_middle front back old
          ⟨config.subhash key, bucket.accessClockVal, key, value⟩ bucket.accessClockVal
        rw [← isSlots] at result
        rw [evicted, result]
        exact .evicted isNew room isSlots least first

/-- **An insertion keeps a bucket right.** -/
theorem Inserted.right {bucket' : Bucket Key Value} {value : Value}
    (inserted : Inserted bucket groupSize (config.subhash key) key value bucket')
    (right : Right config latest (config.bucketOf key) bucket.accessClockVal bucket.slots) :
    Right config (Function.update latest key (some value)) (config.bucketOf key)
        bucket'.accessClockVal bucket'.slots ∧
      UsedLast (some key) bucket' := by
  cases inserted with
  | @overwritten front back slot isSlots isKey =>
      rw [isSlots] at right
      obtain ⟨bucket', result, -, right', usedLast⟩ :=
        touch_spec right (slot.setValue value) rfl rfl
      rw [isKey] at right' usedLast
      rw [result]
      exact ⟨right', usedLast⟩
  | added isNew room =>
      have kept : Right config latest (config.bucketOf key) bucket.accessClockVal
          (bucket.slots ++ []) := by rwa [List.append_nil]
      rw [Bucket.keys, ← List.append_nil bucket.slots] at isNew
      exact ⟨kept.place ⟨_, _, key, value⟩ isNew rfl rfl rfl, .used rfl rfl⟩
  | @evicted front back old isNew full isSlots least first =>
      have sublist : (front ++ back).Sublist bucket.slots := by
        rw [isSlots]
        exact List.Sublist.append_left (List.sublist_cons_self old back) front
      have notKept : key ∉ (front ++ back).map Slot.key := fun member =>
        isNew ((sublist.map Slot.key).subset member)
      exact ⟨(right.sublist sublist).place ⟨_, _, key, value⟩ notKept rfl rfl rfl, .used rfl rfl⟩

omit [DecidableEq Key] in
theorem UsedLast.exists_slot {used : Key} (usedLast : UsedLast (some used) bucket) :
    ∃ slot ∈ bucket.slots, slot.key = used ∧ slot.accessClock = bucket.accessClockVal := by
  cases usedLast with
  | empty unused => cases unused
  | used isKey isClock =>
      exact ⟨_, List.mem_append_right _ List.mem_cons_self, (Option.some.inj isKey).symm, isClock⟩

omit [DecidableEq Key] in
/-- The entry that was used last is the first one with the smallest clock exactly if all clocks are
the same and it is in the first slot. -/
theorem evicts_used_iff {used : Key} {old : Slot Key Value}
    (right : Right config latest home bucket.accessClockVal bucket.slots)
    (usedLast : UsedLast (some used) bucket) (isSlots : bucket.slots = front ++ old :: back)
    (least : ∀ slot ∈ bucket.slots, old.accessClock ≤ slot.accessClock)
    (first : ∀ slot ∈ front, old.accessClock < slot.accessClock) :
    old.key = used ↔ (∀ slot ∈ bucket.slots, bucket.accessClockVal ≤ slot.accessClock) ∧
      bucket.keys.head? = some used := by
  have inSlots : old ∈ bucket.slots := by
    rw [isSlots]
    exact List.mem_append_right _ List.mem_cons_self
  have noFront (all : bucket.accessClockVal ≤ old.accessClock) : front = [] := by
    cases front with
    | nil => rfl
    | cons slot front =>
        have member : slot ∈ bucket.slots := isSlots ▸ List.mem_cons_self
        have most := right.clocks slot member
        have less := first slot List.mem_cons_self
        omega
  constructor
  · rintro rfl
    obtain ⟨slot, member, isKey, isClock⟩ := usedLast.exists_slot
    obtain rfl : slot = old := List.inj_on_of_nodup_map right.unique member inSlots isKey
    refine ⟨fun other member => isClock ▸ least other member, ?_⟩
    rw [Bucket.keys, isSlots, noFront (Nat.le_of_eq isClock.symm)]
    rfl
  · rintro ⟨all, isFirst⟩
    rw [Bucket.keys, isSlots, noFront (all old inSlots)] at isFirst
    exact Option.some.inj isFirst

/-- **When the entry that was used last survives an insertion.** -/
theorem Inserted.survives_iff {bucket' : Bucket Key Value} {value : Value}
    (inserted : Inserted bucket groupSize (config.subhash key) key value bucket')
    (right : Right config latest home bucket.accessClockVal bucket.slots) {used : Key}
    (usedLast : UsedLast (some used) bucket) :
    used ∈ bucket'.keys ↔
      key ∈ bucket.keys ∨ bucket.slots.length < groupSize ∨
        (∃ slot ∈ bucket.slots, slot.accessClock < bucket.accessClockVal) ∨
        bucket.keys.head? ≠ some used := by
  have inBucket : used ∈ bucket.keys := by
    obtain ⟨slot, member, rfl, -⟩ := usedLast.exists_slot
    exact List.mem_map_of_mem member
  cases inserted with
  | @overwritten front back slot isSlots isKey =>
      rw [isSlots] at right
      obtain ⟨bucket', result, keys, -⟩ := touch_spec right (slot.setValue value) rfl rfl
      rw [result, keys, ← isSlots]
      refine iff_of_true inBucket (Or.inl ?_)
      rw [Bucket.keys, isSlots, ← isKey]
      exact List.mem_map_of_mem (List.mem_append_right _ List.mem_cons_self)
  | added isNew room =>
      refine iff_of_true ?_ (Or.inr (Or.inl room))
      rw [Bucket.keys, List.map_append]
      exact List.mem_append_left _ inBucket
  | @evicted front back old isNew full isSlots least first =>
      have evicts := evicts_used_iff right usedLast isSlots least first
      have unique := right.unique
      rw [isSlots, (List.perm_middle.map Slot.key).nodup_iff, List.map_cons, List.nodup_cons] at unique
      have isOther : used ≠ key := fun same => isNew (same ▸ inBucket)
      have kept : used ∈ Bucket.keys ⟨front ++ ⟨config.subhash key, bucket.accessClockVal, key, value⟩ ::
          back, bucket.accessClockVal⟩ ↔ old.key ≠ used := by
        rw [Bucket.keys, isSlots, (List.perm_middle.map Slot.key).mem_iff, List.map_cons,
          List.mem_cons] at inBucket
        rw [Bucket.keys, (List.perm_middle.map Slot.key).mem_iff, List.map_cons, List.mem_cons,
          or_iff_right isOther]
        constructor
        · rintro member rfl
          exact unique.1 member
        · exact fun differs => inBucket.resolve_left fun same => differs same.symm
      rw [kept, or_iff_right isNew, or_iff_right full, Ne, evicts, not_and_or]
      simp only [not_forall, Nat.not_le, exists_prop]

end

/-! ## The invariant of runs -/

/-- All buckets are right, and it is known which entry was used last. -/
def Invariant (w : Watched Key Value) : Prop :=
  ∀ b, Right config w.latest b (w.buckets b).accessClockVal (w.buckets b).slots ∧
    UsedLast (w.recent b) (w.buckets b)

section
variable {config : Config Key} {w : Watched Key Value} {ops : List (Op Key Value)}

omit [DecidableEq Key] in
theorem invariant_start : Invariant config (Watched.start : Watched Key Value) := by
  intro b
  refine ⟨⟨List.nodup_nil, ?_, ?_, ?_, ?_, Nat.zero_le _⟩, .empty rfl⟩
  all_goals exact fun slot member => absurd member List.not_mem_nil

theorem Invariant.insert (invariant : Invariant config w) (large : 0 < config.groupSize) (key : Key)
    (value : Value) : Invariant config (w.step config (.insert key value)) := by
  intro b
  dsimp only [Watched.step, FlatConcurrentCache.insert]
  by_cases here : b = config.bucketOf key
  · subst here
    rw [Function.update_self, Function.update_self]
    have right := (invariant (config.bucketOf key)).1
    exact (insert_cases right large key value).right right
  · rw [Function.update_of_ne here, Function.update_of_ne here]
    exact ⟨(invariant b).1.update (Ne.symm here) (some value), (invariant b).2⟩

/-- What a lookup finds, and what it leaves behind. -/
theorem Invariant.lookup (invariant : Invariant config w) (key : Key) :
    Invariant config (w.step config (.lookup key)) ∧
      ∀ value, (FlatConcurrentCache.lookup config w.buckets key).1 = some value →
        w.latest key = some value := by
  obtain ⟨right, -⟩ := invariant (config.bucketOf key)
  cases found : (w.buckets (config.bucketOf key)).findIndex key (config.subhash key) with
  | none =>
      have result : FlatConcurrentCache.lookup config w.buckets key = (none, w.buckets) := by
        unfold FlatConcurrentCache.lookup
        simp only [found]
      rw [Watched.step, result]
      exact ⟨invariant, fun value missing => by cases missing⟩
  | some i =>
      obtain ⟨front, slot, back, isSlots, rfl, isKey⟩ := findIndex_some found
      have member : slot ∈ (w.buckets (config.bucketOf key)).slots := by
        rw [isSlots]
        exact List.mem_append_right _ List.mem_cons_self
      have stored : w.latest key = some slot.value := by
        rw [← isKey]
        exact right.values slot member
      have result : FlatConcurrentCache.lookup config w.buckets key =
          (some slot.value, Function.update w.buckets (config.bucketOf key)
            ((w.buckets (config.bucketOf key)).updateClock front.length)) := by
        unfold FlatConcurrentCache.lookup
        simp only [found, isSlots, List.getElem?_append_right (Nat.le_refl _), Nat.sub_self,
          List.getElem?_cons_zero, Option.map_some]
      rw [Watched.step, result]
      refine ⟨fun b => ?_, fun value same => by cases same; exact stored⟩
      dsimp only
      rw [Option.isSome_some, if_pos rfl]
      by_cases here : b = config.bucketOf key
      · subst here
        rw [Function.update_self, Function.update_self]
        rw [isSlots] at right
        obtain ⟨bucket', touched, -, right', usedLast⟩ := touch_spec right slot rfl rfl
        have same : (w.buckets (config.bucketOf key)).updateClock front.length = bucket' := by
          rw [← touched, ← isSlots]
        have latest : Function.update w.latest slot.key (some slot.value) = w.latest := by
          rw [isKey, ← stored]
          exact Function.update_eq_self _ _
        rw [latest] at right'
        rw [same, ← isKey]
        exact ⟨isKey ▸ right', usedLast⟩
      · rw [Function.update_of_ne here, Function.update_of_ne here]
        exact invariant b

/-- **One operation keeps the invariant.** -/
theorem Invariant.step (invariant : Invariant config w) (large : 0 < config.groupSize)
    (op : Op Key Value) : Invariant config (w.step config op) := by
  cases op with
  | insert key value => exact invariant.insert large key value
  | lookup key => exact (invariant.lookup key).1

/-- **One operation is disciplined** exactly if it is an insertion with the clocks apart, or none. -/
theorem Invariant.disciplined_step_iff (invariant : Invariant config w) (large : 0 < config.groupSize)
    (op : Op Key Value) : Disciplined config w op ↔ Apart config w op := by
  have unique : ∀ b, ((w.step config op).buckets b).keys.Nodup := fun b =>
    (invariant.step large op b).1.unique
  cases op with
  | lookup key =>
      refine iff_of_true ⟨unique, fun other same => ?_, fun _ _ same => by cases same⟩ trivial
      cases same
      exact (invariant.lookup key).2
  | insert key value =>
      obtain ⟨right, usedLast⟩ := invariant (config.bucketOf key)
      have inserted := insert_cases right large key value
      have result : (w.step config (.insert key value)).buckets (config.bucketOf key) =
          (w.buckets (config.bucketOf key)).insert config.groupSize (config.subhash key) key value :=
        Function.update_self ..
      cases recent : w.recent (config.bucketOf key) with
      | none =>
          rw [recent] at usedLast
          refine iff_of_true ⟨unique, fun _ same => (by cases same), ?_⟩ (Or.inr (Or.inl ?_))
          · intro _ _ same used isUsed
            cases same
            rw [recent] at isUsed
            cases isUsed
          · generalize w.buckets (config.bucketOf key) = bucket at usedLast
            cases usedLast with
            | empty unused => exact large
            | used isKey isClock => cases isKey
      | some used =>
          rw [recent] at usedLast
          have survives := inserted.survives_iff right usedLast
          rw [← result] at survives
          unfold Apart
          dsimp only
          rw [recent, ← survives]
          constructor
          · exact fun disciplined => disciplined.survives key value rfl used recent
          · refine fun kept => ⟨unique, fun _ same => (by cases same), ?_⟩
            intro _ _ same other isOther
            cases same
            rw [recent] at isOther
            cases isOther
            exact kept

/-- **Runs are disciplined** exactly as long as the clocks are apart. -/
theorem Invariant.along_iff (invariant : Invariant config w) (large : 0 < config.groupSize)
    (ops : List (Op Key Value)) :
    Along config (Disciplined config) w ops ↔ Along config (Apart config) w ops := by
  induction ops generalizing w with
  | nil => exact Iff.rfl
  | cons op ops ih =>
      exact and_congr (invariant.disciplined_step_iff large op) (ih (invariant.step large op))

end

/-! ## Main result -/

/-- **In every run the buckets are disciplined, step by step, exactly if every insertion that evicts
finds the clocks apart**: one of them behind, or the entry that was used last not the first. -/
theorem disciplined_iff (config : Config Key) (large : 2 ≤ config.groupSize)
    (ops : List (Op Key Value)) :
    Along config (Disciplined config) .start ops ↔ Along config (Apart config) .start ops :=
  invariant_start.along_iff (Nat.lt_of_lt_of_le Nat.two_pos large) ops

/-- One bucket of nine slots. -/
def oneBucket : Config Nat := ⟨9, 1, fun key => UInt64.ofNat key⟩

/-- A lookup puts the clocks apart. -/
theorem disciplined_iff_looked :
    Along oneBucket (Disciplined oneBucket) .start
      ((List.range 9).map (fun i => Op.insert i i) ++ [.lookup 0, .insert 9 9, .insert 10 10]) :=
  (disciplined_iff oneBucket (by decide) _).2 (by decide +kernel)

/-- Of eleven keys that are only stored, the eleventh takes the slot of the tenth. -/
theorem not_disciplined_eleven :
    ¬ Along oneBucket (Disciplined oneBucket) .start ((List.range 11).map fun i => Op.insert i i) := by
  rw [invariant_start.along_iff (by decide)]
  decide +kernel

end FlatConcurrentCache

end Mozkey
