import Mozkey.Composer.CharChunk

/-!
# Compositions

A composition is the list of its chunks.  An iterator into the list is given here by the chunks in
front of it and the chunks from it on.  Positions count the characters that are shown.
-/

namespace Mozkey.Composer

/-- `Composition`. -/
structure Composition where
  table : SharedTable
  chunks : List CharChunk
  inputT12r : Transliterator

namespace Composition

variable (forms : CharacterForms)

/-! ## Positions -/

/-- `Composition::GetPosition` of the iterator behind these chunks. -/
def getPosition (t12r : Transliterator) (front : List CharChunk) : Nat :=
  (front.map fun c => c.getLength forms t12r).sum

/-- `Composition::GetLength`. -/
def getLength (chunks : List CharChunk) : Nat := getPosition forms .localChoice chunks

/-- `Composition::GetChunkAt`: the iterator and the position inside of its chunk. -/
def getChunkAt (t12r : Transliterator) : List CharChunk → Nat → List CharChunk × List CharChunk × Nat
  | [], _ => ([], [], 0)
  | [c], position => ([], [c], min position (c.getLength forms t12r))
  | c :: next :: rest, position =>
      let length := c.getLength forms t12r
      if length < position then
        let (front, behind, inner) := getChunkAt t12r (next :: rest) (position - length)
        (c :: front, behind, inner)
      else ([], c :: next :: rest, position)

/-- `Composition::MaybeSplitChunkAt`; none when bytes of a character come apart. -/
def maybeSplitChunkAt (chunks : List CharChunk) (position : Nat) :
    Option (List CharChunk × List CharChunk) :=
  match getChunkAt forms .localChoice chunks position with
  | (front, [], _) => some (front, [])
  | (front, c :: behind, inner) =>
      if front.isEmpty ∧ inner = 0 then some (front, c :: behind)
      else if inner = c.getLength forms .localChoice then some (front ++ [c], behind)
      else if c.isInside forms .localChoice inner then
        match c.splitChunk forms .localChoice inner with
        | none => none
        | some (left, right) => some (front ++ [left], right :: behind)
      else some (front, c :: behind)

/-! ## Inserting -/

/-- `Composition::GetInsertionChunk`: the chunks in front of the one to insert into, and that one. -/
def getInsertionChunk (comp : Composition) (front : List CharChunk) : List CharChunk × CharChunk :=
  match front.getLast? with
  | none => ([], .new comp.inputT12r comp.table)
  | some left =>
      if left.isAppendable comp.inputT12r comp.table then (front.dropLast, left)
      else (front, .new comp.inputT12r comp.table)

/-- `Composition::CombinePendingChunks`, on the chunks in front, the nearest one first. -/
def combinePendingChunks (comp : Composition) (nextInput : Text) :
    List CharChunk → CharChunk → List CharChunk × CharChunk
  | [], it => ([], it)
  | left :: rest, it =>
      if left.isConvertible comp.inputT12r comp.table (it.pending ++ nextInput) then
        combinePendingChunks comp nextInput rest (it.combine left)
      else (left :: rest, it)

/-- The loop of `Composition::InsertInput`: the chunks that are full, and the last one; none when
adding fails or the loop does not come to an end in time. -/
def insertLoop (comp : Composition) :
    Nat → CharChunk → CompositionInput → Option (List CharChunk × CharChunk)
  | 0, _, _ => none
  | fuel + 1, c, input =>
      match c.addCompositionInput fuel input with
      | none => none
      | some (c, input) =>
          if input.isEmpty then some ([], c)
          else
            (insertLoop comp fuel (.new comp.inputT12r comp.table)
              { input with isNewInput := false }).map fun (full, last) => (c :: full, last)

/-- Whether a chunk is erased when input was added. -/
def isBlank (c : CharChunk) : Bool := c.raw.isEmpty && c.conversion.isEmpty && c.pending.isEmpty

/-- The iterator that `Composition::InsertInput` inserts in front of. -/
def insertionPoint (comp : Composition) (pos : Nat) : Option (List CharChunk × List CharChunk) :=
  (maybeSplitChunkAt forms comp.chunks pos).map fun (front, right) =>
    let isHidden := fun c : CharChunk => decide (c.getLength forms comp.inputT12r = 0)
    (front ++ right.takeWhile isHidden, right.dropWhile isHidden)

/-- `Composition::InsertInput` in front of an iterator: the chunks that are then in front of it. -/
def insertBefore (comp : Composition) (fuel : Nat) (front : List CharChunk)
    (input : CompositionInput) : Option (List CharChunk) :=
  let (front, it) := comp.getInsertionChunk front
  let (front, it) :=
    if input.isAsis then (front.reverse, it)
    else
      comp.combinePendingChunks (if input.conversion.isEmpty then input.raw else input.conversion)
        front.reverse it
  (comp.insertLoop fuel it input).map fun (full, last) =>
    front.reverse ++ full ++ if isBlank last then [] else [last]

/-- `Composition::InsertInput`: the composition and the new position. -/
def insertInput (comp : Composition) (fuel : Nat) (pos : Nat) (input : CompositionInput) :
    Option (Composition × Nat) :=
  if input.isEmpty then some (comp, pos)
  else
    (comp.insertionPoint forms pos).bind fun (front, right) =>
      (comp.insertBefore fuel front input).map fun front =>
        ({ comp with chunks := front ++ right }, getPosition forms .localChoice front)

/-- `Composition::InsertAt`. -/
def insertAt (comp : Composition) (fuel : Nat) (pos : Nat) (input : Text) :
    Option (Composition × Nat) :=
  comp.insertInput forms fuel pos { CompositionInput.new with raw := input }

/-! ## Deleting -/

/-- The loop of `Composition::DeleteAt`; none when bytes of a character come apart or the loop does
not come to an end in time. -/
def deleteLoop (originalSize position : Nat) :
    Nat → List CharChunk → Nat → Option (List CharChunk × Nat)
  | 0, _, _ => none
  | fuel + 1, chunks, newPosition =>
      if chunks.isEmpty ∨ getLength forms chunks ≠ originalSize then some (chunks, newPosition)
      else
        match maybeSplitChunkAt forms chunks position with
        | none => none
        | some (front, []) => some (front, getPosition forms .localChoice front)
        | some (front, c :: behind) =>
            let newPosition := getPosition forms .localChoice front
            -- a chunk of special keys alone shows nothing and is erased as well
            if c.getLength forms .localChoice ≤ 1 then
              deleteLoop originalSize position fuel (front ++ behind) newPosition
            else
              match c.splitChunk forms .localChoice 1 with
              | none => none
              | some (_, right) =>
                  deleteLoop originalSize position fuel (front ++ right :: behind) newPosition

/-- `Composition::DeleteAt`. -/
def deleteAt (comp : Composition) (fuel : Nat) (position : Nat) : Option (Composition × Nat) :=
  (deleteLoop forms (getLength forms comp.chunks) position fuel comp.chunks position).map
    fun (chunks, newPosition) => ({ comp with chunks := chunks }, newPosition)

/-! ## Texts -/

/-- `Composition::TrimMode`. -/
inductive TrimMode where
  | trim
  | asis
  | fix
deriving DecidableEq

/-- `Composition::GetStringWithModes`. -/
def getStringWithModes (chunks : List CharChunk) (t12r : Transliterator) (mode : TrimMode) : Text :=
  (chunks.dropLast.flatMap fun c => c.result forms t12r) ++
    match chunks.getLast? with
    | none => []
    | some last =>
        match mode with
        | .trim => last.trimedResult forms t12r
        | .asis => last.result forms t12r
        | .fix => last.fixedResult forms t12r

/-! ## Modes -/

/-- `Composition::SetInputMode`. -/
def setInputMode (comp : Composition) (t12r : Transliterator) : Composition :=
  { comp with inputT12r := t12r }

/-- `CharChunk::SetTransliterator`. -/
def setChunkTransliterator (t12r : Transliterator) (c : CharChunk) : CharChunk :=
  if t12r = .localChoice then c else { c with transliterator := t12r }

/-- `Composition::SetTransliterator`: the chunks from one position to another one. -/
def setTransliterator (comp : Composition) (positionFrom positionTo : Nat)
    (t12r : Transliterator) : Composition :=
  if positionTo < positionFrom ∨ comp.chunks.isEmpty then comp
  else
    let first := (getChunkAt forms .localChoice comp.chunks positionFrom).1.length
    let last := (getChunkAt forms .localChoice comp.chunks positionTo).1.length
    { comp with
      chunks := comp.chunks.mapIdx fun i c =>
        if first ≤ i ∧ i ≤ last then setChunkTransliterator t12r c else c }

/-- `Composition::SetTable`. -/
def setTable (comp : Composition) (table : SharedTable) : Composition := { comp with table := table }

end Composition

/-! ## What is reached -/

/-- The chunks that come out of new ones, for tables of a kind. -/
inductive ReachedChunk (tables : Table → Prop) : CharChunk → Prop
  | new {table : Table} (t12r : Transliterator) (address : Nat) :
      tables table → ReachedChunk tables (.new t12r ⟨address, table⟩)
  | addCompositionInput {c c' : CharChunk} {fuel : Nat} {input rest : CompositionInput} :
      ReachedChunk tables c → c.addCompositionInput fuel input = some (c', rest) →
        ReachedChunk tables c'
  | combine {c left : CharChunk} :
      ReachedChunk tables c → ReachedChunk tables left → ReachedChunk tables (c.combine left)
  | splitLeft {c left right : CharChunk} {forms : CharacterForms} {t12r : Transliterator}
      {position : Nat} :
      ReachedChunk tables c → c.splitChunk forms t12r position = some (left, right) →
        ReachedChunk tables left
  | splitRight {c left right : CharChunk} {forms : CharacterForms} {t12r : Transliterator}
      {position : Nat} :
      ReachedChunk tables c → c.splitChunk forms t12r position = some (left, right) →
        ReachedChunk tables right
  | setTransliterator {c : CharChunk} (t12r : Transliterator) :
      ReachedChunk tables c → ReachedChunk tables (Composition.setChunkTransliterator t12r c)

namespace Composition

variable {forms : CharacterForms} {tables : Table → Prop}

/-- The compositions that come out of empty ones, for tables of a kind. -/
inductive Reached (forms : CharacterForms) (tables : Table → Prop) : Composition → Prop
  | new {table : Table} (address : Nat) (t12r : Transliterator) :
      tables table → Reached forms tables ⟨⟨address, table⟩, [], t12r⟩
  | insertInput {comp comp' : Composition} {fuel pos pos' : Nat} {input : CompositionInput} :
      Reached forms tables comp → comp.insertInput forms fuel pos input = some (comp', pos') →
        Reached forms tables comp'
  | deleteAt {comp comp' : Composition} {fuel pos pos' : Nat} :
      Reached forms tables comp → comp.deleteAt forms fuel pos = some (comp', pos') →
        Reached forms tables comp'
  | split {comp : Composition} {pos : Nat} {front behind : List CharChunk} :
      Reached forms tables comp → maybeSplitChunkAt forms comp.chunks pos = some (front, behind) →
        Reached forms tables { comp with chunks := front ++ behind }
  | setInputMode {comp : Composition} (t12r : Transliterator) :
      Reached forms tables comp → Reached forms tables (comp.setInputMode t12r)
  | setTransliterator {comp : Composition} (positionFrom positionTo : Nat) (t12r : Transliterator) :
      Reached forms tables comp →
        Reached forms tables (comp.setTransliterator forms positionFrom positionTo t12r)
  | setTable {comp : Composition} {table : Table} (address : Nat) :
      Reached forms tables comp → tables table →
        Reached forms tables (comp.setTable ⟨address, table⟩)

/-- The chunks are the ones in front of the iterator and those from it on. -/
theorem getChunkAt_append (forms : CharacterForms) (t12r : Transliterator) (chunks : List CharChunk) (position : Nat) :
    (getChunkAt forms t12r chunks position).1 ++ (getChunkAt forms t12r chunks position).2.1 =
      chunks := by
  induction chunks generalizing position with
  | nil => rfl
  | cons c rest ih =>
      cases rest with
      | nil => rfl
      | cons next rest =>
          rw [getChunkAt]
          dsimp only
          split
          · exact congrArg (c :: ·) (ih _)
          · rfl

section Members

variable {front behind chunks : List CharChunk} {position : Nat}

theorem reachedChunk_maybeSplitChunkAt (reached : ∀ c ∈ chunks, ReachedChunk tables c)
    (split : maybeSplitChunkAt forms chunks position = some (front, behind)) :
    ∀ c ∈ front ++ behind, ReachedChunk tables c := by
  have parts := getChunkAt_append forms .localChoice chunks position
  unfold maybeSplitChunkAt at split
  generalize getChunkAt forms .localChoice chunks position = found at parts split
  obtain ⟨before, from_, inner⟩ := found
  rw [← parts] at reached
  cases from_ with
  | nil =>
      obtain ⟨rfl, rfl⟩ := Prod.mk.inj (Option.some_inj.1 split)
      exact reached
  | cons c rest =>
      dsimp only at split
      split_ifs at split with start all inside
      · obtain ⟨rfl, rfl⟩ := Prod.mk.inj (Option.some_inj.1 split)
        exact reached
      · obtain ⟨rfl, rfl⟩ := Prod.mk.inj (Option.some_inj.1 split)
        rwa [List.append_assoc]
      · cases halves : c.splitChunk forms .localChoice inner with
        | none =>
            rw [halves] at split
            cases split
        | some pair =>
            obtain ⟨left, right⟩ := pair
            rw [halves] at split
            obtain ⟨rfl, rfl⟩ := Prod.mk.inj (Option.some_inj.1 split)
            have isReached : ReachedChunk tables c :=
              reached c (List.mem_append_right _ List.mem_cons_self)
            intro d member
            rcases List.mem_append.1 member with member | member
            · rcases List.mem_append.1 member with member | member
              · exact reached d (List.mem_append_left _ member)
              · rw [List.mem_singleton.1 member]
                exact .splitLeft isReached halves
            · rcases List.mem_cons.1 member with rfl | member
              · exact .splitRight isReached halves
              · exact reached d (List.mem_append_right _ (List.mem_cons_of_mem _ member))
      · obtain ⟨rfl, rfl⟩ := Prod.mk.inj (Option.some_inj.1 split)
        exact reached

theorem reachedChunk_combinePendingChunks {comp : Composition} {nextInput : Text}
    {it : CharChunk} (isReached : ReachedChunk tables it)
    (reached : ∀ c ∈ chunks, ReachedChunk tables c) :
    (∀ c ∈ (comp.combinePendingChunks nextInput chunks it).1, ReachedChunk tables c) ∧
      ReachedChunk tables (comp.combinePendingChunks nextInput chunks it).2 := by
  induction chunks generalizing it with
  | nil => exact ⟨reached, isReached⟩
  | cons left rest ih =>
      rw [combinePendingChunks]
      split
      · exact ih (.combine isReached (reached left List.mem_cons_self))
          fun c member => reached c (List.mem_cons_of_mem _ member)
      · exact ⟨reached, isReached⟩

theorem reachedChunk_insertLoop {comp : Composition} (ok : tables comp.table.table) {fuel : Nat}
    {c last : CharChunk} {input : CompositionInput} {full : List CharChunk}
    (isReached : ReachedChunk tables c) (inserted : comp.insertLoop fuel c input = some (full, last)) :
    (∀ d ∈ full, ReachedChunk tables d) ∧ ReachedChunk tables last := by
  induction fuel generalizing c input full with
  | zero => cases inserted
  | succ fuel ih =>
      rw [insertLoop] at inserted
      split at inserted
      · cases inserted
      · next c' rest added =>
        have grown : ReachedChunk tables c' := .addCompositionInput isReached added
        split at inserted
        · obtain ⟨rfl, rfl⟩ := Prod.mk.inj (Option.some_inj.1 inserted)
          exact ⟨fun d member => absurd member List.not_mem_nil, grown⟩
        · obtain ⟨⟨more, end_⟩, loops, same⟩ := Option.map_eq_some_iff.1 inserted
          obtain ⟨rfl, rfl⟩ := Prod.mk.inj same
          obtain ⟨reachedMore, reachedEnd⟩ := ih (.new _ comp.table.address ok) loops
          refine ⟨?_, reachedEnd⟩
          rintro d member
          rcases List.mem_cons.1 member with rfl | member
          · exact grown
          · exact reachedMore d member

theorem reachedChunk_getInsertionChunk {comp : Composition} (ok : tables comp.table.table)
    (reached : ∀ c ∈ front, ReachedChunk tables c) :
    (∀ c ∈ (comp.getInsertionChunk front).1, ReachedChunk tables c) ∧
      ReachedChunk tables (comp.getInsertionChunk front).2 := by
  have isNew : ReachedChunk tables (.new comp.inputT12r comp.table) := .new _ comp.table.address ok
  unfold getInsertionChunk
  split
  · exact ⟨fun c member => absurd member List.not_mem_nil, isNew⟩
  · next left isLast =>
    split
    · exact ⟨fun c member => reached c (List.dropLast_subset _ member),
        reached left (List.mem_of_getLast? isLast)⟩
    · exact ⟨reached, isNew⟩

theorem reachedChunk_insertBefore {comp : Composition} (ok : tables comp.table.table) {fuel : Nat}
    {input : CompositionInput} {front' : List CharChunk}
    (reached : ∀ c ∈ front, ReachedChunk tables c)
    (inserted : comp.insertBefore fuel front input = some front') :
    ∀ c ∈ front', ReachedChunk tables c := by
  unfold insertBefore at inserted
  obtain ⟨reachedBefore, reachedIt⟩ := reachedChunk_getInsertionChunk ok reached
  generalize comp.getInsertionChunk front = place at *
  obtain ⟨before, it⟩ := place
  dsimp only at *
  have combined : ∀ place : List CharChunk × CharChunk,
      place = (if input.isAsis then (before.reverse, it)
        else comp.combinePendingChunks
          (if input.conversion.isEmpty then input.raw else input.conversion) before.reverse it) →
      (∀ c ∈ place.1, ReachedChunk tables c) ∧ ReachedChunk tables place.2 := by
    rintro place rfl
    have reversed : ∀ c ∈ before.reverse, ReachedChunk tables c :=
      fun c member => reachedBefore c (List.mem_reverse.1 member)
    split
    · exact ⟨reversed, reachedIt⟩
    · exact reachedChunk_combinePendingChunks reachedIt reversed
  obtain ⟨reachedFront, reachedLast⟩ := combined _ rfl
  obtain ⟨⟨full, last⟩, loops, rfl⟩ := Option.map_eq_some_iff.1 inserted
  obtain ⟨reachedFull, reachedEnd⟩ := reachedChunk_insertLoop ok reachedLast loops
  intro c member
  rcases List.mem_append.1 member with member | member
  · rcases List.mem_append.1 member with member | member
    · exact reachedFront c (List.mem_reverse.1 member)
    · exact reachedFull c member
  · split at member
    · cases member
    · rw [List.mem_singleton.1 member]
      exact reachedEnd

theorem reachedChunk_deleteLoop {originalSize newPosition pos : Nat} {fuel : Nat}
    {chunks' : List CharChunk} (reached : ∀ c ∈ chunks, ReachedChunk tables c)
    (deleted : deleteLoop forms originalSize position fuel chunks newPosition = some (chunks', pos)) :
    ∀ c ∈ chunks', ReachedChunk tables c := by
  induction fuel generalizing chunks newPosition with
  | zero => cases deleted
  | succ fuel ih =>
      rw [deleteLoop] at deleted
      split at deleted
      · obtain ⟨rfl, rfl⟩ := Prod.mk.inj (Option.some_inj.1 deleted)
        exact reached
      · split at deleted
        · cases deleted
        · next split =>
          obtain ⟨rfl, rfl⟩ := Prod.mk.inj (Option.some_inj.1 deleted)
          have parts := reachedChunk_maybeSplitChunkAt reached split
          rwa [List.append_nil] at parts
        · next front c behind split =>
          have parts := reachedChunk_maybeSplitChunkAt reached split
          dsimp only at deleted
          split at deleted
          · refine ih ?_ deleted
            intro d member
            rcases List.mem_append.1 member with member | member
            · exact parts d (List.mem_append_left _ member)
            · exact parts d (List.mem_append_right _ (List.mem_cons_of_mem _ member))
          · split at deleted
            · cases deleted
            · next left right halves =>
              refine ih ?_ deleted
              intro d member
              rcases List.mem_append.1 member with member | member
              · exact parts d (List.mem_append_left _ member)
              · rcases List.mem_cons.1 member with rfl | member
                · exact .splitRight (parts c (List.mem_append_right _ List.mem_cons_self)) halves
                · exact parts d (List.mem_append_right _ (List.mem_cons_of_mem _ member))

end Members

/-- **Every chunk of a composition that is reached is reached**, and so is its table. -/
theorem Reached.chunks {comp : Composition} (reached : Reached forms tables comp) :
    tables comp.table.table ∧ ∀ c ∈ comp.chunks, ReachedChunk tables c := by
  induction reached with
  | new address t12r ok => exact ⟨ok, fun c member => absurd member List.not_mem_nil⟩
  | @insertInput comp comp' fuel pos pos' input _ inserted ih =>
      obtain ⟨ok, chunks⟩ := ih
      unfold Composition.insertInput at inserted
      split at inserted
      · obtain ⟨rfl, rfl⟩ := Prod.mk.inj (Option.some_inj.1 inserted)
        exact ⟨ok, chunks⟩
      · obtain ⟨⟨front, right⟩, point, inserted⟩ := Option.bind_eq_some_iff.1 inserted
        obtain ⟨front', before, same⟩ := Option.map_eq_some_iff.1 inserted
        obtain ⟨rfl, rfl⟩ := Prod.mk.inj same
        obtain ⟨⟨before', behind⟩, split, same⟩ := Option.map_eq_some_iff.1 point
        have parts := reachedChunk_maybeSplitChunkAt chunks split
        obtain ⟨rfl, rfl⟩ := Prod.mk.inj same
        refine ⟨ok, ?_⟩
        have skipped := List.takeWhile_append_dropWhile
          (p := fun c : CharChunk => decide (c.getLength forms comp.inputT12r = 0)) (l := behind)
        rw [← skipped, ← List.append_assoc] at parts
        intro c member
        rcases List.mem_append.1 member with member | member
        · exact reachedChunk_insertBefore ok
            (fun d inFront => parts d (List.mem_append_left _ inFront)) before c member
        · exact parts c (List.mem_append_right _ member)
  | deleteAt _ deleted ih =>
      obtain ⟨ok, chunks⟩ := ih
      obtain ⟨⟨chunks', pos⟩, loops, same⟩ := Option.map_eq_some_iff.1 deleted
      obtain ⟨rfl, rfl⟩ := Prod.mk.inj same
      exact ⟨ok, reachedChunk_deleteLoop chunks loops⟩
  | split _ split ih => exact ⟨ih.1, reachedChunk_maybeSplitChunkAt ih.2 split⟩
  | setInputMode _ _ ih => exact ih
  | setTransliterator positionFrom positionTo t12r _ ih =>
      obtain ⟨ok, chunks⟩ := ih
      unfold Composition.setTransliterator
      split
      · exact ⟨ok, chunks⟩
      · refine ⟨ok, ?_⟩
        intro c member
        obtain ⟨i, less, rfl⟩ := List.mem_mapIdx.1 member
        split
        · exact .setTransliterator t12r (chunks _ (List.getElem_mem less))
        · exact chunks _ (List.getElem_mem less)
  | setTable address _ ok ih => exact ⟨ok, ih.2⟩

end Composition

end Mozkey.Composer
