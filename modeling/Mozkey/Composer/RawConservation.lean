import Mozkey.Composer.Composition

/-!
# What was typed is kept

The chunks of a composition keep the text that was typed.  Each step of a chunk moves input into
the raw text of the chunk, a snapshot that is gone back to hands the later input back, and chunks
that are combined join their raw texts.  So inserting adds the text to the raw texts in front of
the place where it is inserted.

At the end of a composition that place need not be the end of the raw text.  The position is
counted in the characters each chunk shows in its own mode, and the chunks that show nothing are
skipped as far as they show nothing in the mode of the input.  `rawKept_iff` says when the raw
text is nevertheless kept.
-/

namespace Mozkey.Composer

/-- What was typed for these chunks. -/
def rawText (chunks : List CharChunk) : Text := chunks.flatMap CharChunk.raw

@[simp] theorem rawText_append (chunks others : List CharChunk) :
    rawText (chunks ++ others) = rawText chunks ++ rawText others :=
  List.flatMap_append

@[simp] theorem rawText_cons (c : CharChunk) (chunks : List CharChunk) :
    rawText (c :: chunks) = c.raw ++ rawText chunks :=
  List.flatMap_cons

@[simp] theorem rawText_nil : rawText [] = [] := rfl

/-- No rule of the table is a `NO_TRANSLITERATION` one. -/
def NeverHides (t : Table) : Prop :=
  ∀ text entry, (t.lookUpPrefix text).data = some entry → entry.attributes.noTransliteration = false

/-- A chunk that shows what was typed where the mode is to show it. -/
structure Plain (c : CharChunk) : Prop where
  table : NeverHides c.table.table
  attributes : c.attributes.noTransliteration = false
  snapshot : c.displayAmbiguousResult.attributes.noTransliteration = false

/-! ## Steps -/

namespace Plain

variable {c c' left : CharChunk} {input rest : Text} {done : CharChunk × Bool × Text}

theorem new {t12r : Transliterator} {table : SharedTable} (hides : NeverHides table.table) :
    Plain (.new t12r table) :=
  ⟨hides, rfl, rfl⟩

theorem enter (plain : Plain c) {entry : Entry} {taken : Text}
    (shown : entry.attributes.noTransliteration = false) : Plain (c.enter entry taken) := by
  refine ⟨plain.table, ?_, plain.snapshot⟩
  change (if c.isFirstEntry then entry.attributes else c.attributes).noTransliteration = false
  split
  · exact shown
  · exact plain.attributes

/-- A step keeps a chunk plain. -/
theorem step (plain : Plain c) (does : CharChunk.Step c input done) : Plain done.1 := by
  cases does with
  | withoutEntry _ without =>
      cases without with
      | restored => exact ⟨plain.table, plain.snapshot, rfl⟩
      | trimmed => exact plain
      | front => exact ⟨plain.table, plain.attributes, plain.snapshot⟩
      | unused => exact plain
      | taken => exact ⟨plain.table, plain.attributes, plain.snapshot⟩
  | @withEntry entry isEntry _ withEntry =>
      have shown := plain.table _ _ isEntry
      cases withEntry with
      | settled =>
          have entered : Plain (c.enter entry input) := plain.enter shown
          exact ⟨entered.table, entered.attributes, rfl⟩
      | cleared =>
          have entered : Plain (c.enter entry input) := plain.enter shown
          exact ⟨entered.table, entered.attributes, rfl⟩
      | awaited =>
          have entered : Plain (c.enter entry input) := plain.enter shown
          refine ⟨entered.table, entered.attributes, ?_⟩
          change (if entry.attributes.displayAmbiguousResult then
            (⟨_, _, _, (c.enter entry input).attributes⟩ : DisplayAmbiguousResult)
            else noDisplayAmbiguousResult).attributes.noTransliteration = false
          split
          · exact entered.attributes
          · rfl

/-- **A step keeps the raw text in front of the rest of the input.** -/
theorem raw_step (plain : Plain c) (visible : Visible input) (does : CharChunk.Step c input done) :
    done.1.raw ++ done.2.2 = c.raw ++ input := by
  cases does with
  | withoutEntry _ without =>
      cases without with
      | restored has =>
          have inFront : c.displayAmbiguousResult.raw <+: c.raw := by
            unfold CharChunk.hasDisplayAmbiguousResultFallback at has
            rw [Bool.and_eq_true] at has
            exact List.isPrefixOf_iff_prefix.1 has.2
          obtain ⟨later, isRaw⟩ := inFront
          change c.displayAmbiguousResult.raw ++
            (c.raw.drop c.displayAmbiguousResult.raw.length ++ input) = c.raw ++ input
          rw [← isRaw, List.drop_left, List.append_assoc]
      | trimmed shorter =>
          rw [visible.trimLeadingSpecialKey_eq] at shorter
          exact absurd shorter (Nat.lt_irrefl _)
      | front =>
          change c.raw ++ input.take 1 ++ input.drop 1 = c.raw ++ input
          rw [List.append_assoc, List.take_append_drop]
      | unused => rfl
      | taken =>
          change c.raw ++ input.take _ ++ input.drop _ = c.raw ++ input
          rw [List.append_assoc, List.take_append_drop]
  | @withEntry entry isEntry _ withEntry =>
      cases withEntry with
      | settled =>
          change c.raw ++ input.take _ ++ input.drop _ = c.raw ++ input
          rw [List.append_assoc, List.take_append_drop]
      | cleared _ _ _ _ hidden =>
          have entered : Plain (c.enter entry input) := plain.enter (plain.table _ _ isEntry)
          rw [entered.attributes] at hidden
          cases hidden
      | awaited =>
          change c.raw ++ input ++ [] = c.raw ++ input
          rw [List.append_nil]

/-- **Combining joins the raw texts.** -/
theorem raw_combine (c left : CharChunk) : (c.combine left).raw = left.raw ++ c.raw := rfl

/-! ## Adding input to a chunk -/

theorem addInput (plain : Plain c) {fuel : Nat}
    (added : CharChunk.addInput fuel c input = some (c', rest)) : Plain c' := by
  induction fuel generalizing c input with
  | zero => cases added
  | succ fuel ih =>
      rw [CharChunk.addInput] at added
      split at added
      · cases added
      · next next more stepped => exact ih (plain.step (CharChunk.step_of_eq_some stepped)) added
      · next stepped =>
        obtain ⟨rfl, rfl⟩ := Prod.mk.inj (Option.some_inj.1 added)
        exact plain.step (CharChunk.step_of_eq_some stepped)

theorem raw_addInput (plain : Plain c) (visible : Visible (c.raw ++ input)) {fuel : Nat}
    (added : CharChunk.addInput fuel c input = some (c', rest)) : c'.raw ++ rest = c.raw ++ input := by
  induction fuel generalizing c input with
  | zero => cases added
  | succ fuel ih =>
      obtain ⟨_, visibleInput⟩ := Visible.append_iff.1 visible
      rw [CharChunk.addInput] at added
      split at added
      · cases added
      · next next more stepped =>
        have does := CharChunk.step_of_eq_some stepped
        have kept : next.raw ++ more = c.raw ++ input := plain.raw_step visibleInput does
        rw [← kept] at visible ⊢
        exact ih (plain.step does) visible added
      · next stepped =>
        obtain ⟨rfl, rfl⟩ := Prod.mk.inj (Option.some_inj.1 added)
        exact plain.raw_step visibleInput (CharChunk.step_of_eq_some stepped)

theorem combine (plain : Plain c) : Plain (c.combine left) :=
  ⟨plain.table, plain.attributes, plain.snapshot⟩

theorem addCompositionInput (plain : Plain c) {fuel : Nat} {typed left : CompositionInput}
    (added : c.addCompositionInput fuel typed = some (c', left)) : Plain c' := by
  unfold CharChunk.addCompositionInput at added
  split at added
  · have same : c' = (c.addInputAndConvertedChar typed).1 :=
      (Prod.mk.inj (Option.some_inj.1 added)).1.symm
    rw [same]
    unfold CharChunk.addInputAndConvertedChar
    dsimp only
    split
    · split
      · exact ⟨plain.table, plain.attributes, plain.snapshot⟩
      · exact plain
    split
    · refine ⟨plain.table, ?_, plain.snapshot⟩
      dsimp only
      split
      · next found => exact plain.table _ _ (Table.data_of_lookUp found)
      · exact plain.attributes
    · split
      · exact plain
      · split
        · split
          · exact ⟨plain.table, plain.attributes, plain.snapshot⟩
          · exact ⟨plain.table, plain.attributes, plain.snapshot⟩
        split
        · exact plain
        · exact ⟨plain.table, plain.attributes, plain.snapshot⟩
  · split at added
    · obtain ⟨rfl, rfl⟩ := Prod.mk.inj (Option.some_inj.1 added)
      exact plain
    · split at added
      · cases added
      · next inputAdded =>
        obtain ⟨rfl, rfl⟩ := Prod.mk.inj (Option.some_inj.1 added)
        exact plain.addInput inputAdded

/-- Text alone is added to the raw text, as far as it is taken. -/
theorem raw_addCompositionInput (plain : Plain c) {fuel : Nat} {typed left : CompositionInput}
    (textOnly : typed.conversion = []) (visible : Visible (c.raw ++ typed.raw))
    (added : c.addCompositionInput fuel typed = some (c', left)) :
    c'.raw ++ left.raw = c.raw ++ typed.raw ∧ left.conversion = [] := by
  unfold CharChunk.addCompositionInput at added
  rw [textOnly, if_neg (by decide)] at added
  split at added
  · obtain ⟨rfl, rfl⟩ := Prod.mk.inj (Option.some_inj.1 added)
    exact ⟨rfl, textOnly⟩
  · split at added
    · cases added
    · next inputAdded =>
      obtain ⟨rfl, rfl⟩ := Prod.mk.inj (Option.some_inj.1 added)
      exact ⟨plain.raw_addInput visible inputAdded, rfl⟩

/-- **Chunks that are reached are plain**, for tables without `NO_TRANSLITERATION` rules. -/
theorem of_reached (reached : ReachedChunk NeverHides c) : Plain c := by
  induction reached with
  | new t12r address hides => exact .new hides
  | addCompositionInput _ added ih => exact ih.addCompositionInput added
  | combine _ _ ih => exact ⟨ih.table, ih.attributes, ih.snapshot⟩
  | splitLeft _ halves ih =>
      unfold CharChunk.splitChunk at halves
      dsimp only at halves
      split at halves
      · obtain ⟨_, _, same⟩ := Option.map_eq_some_iff.1 halves
        obtain ⟨rfl, rfl⟩ := Prod.mk.inj same
        exact ⟨ih.table, rfl, rfl⟩
      · obtain ⟨_, _, same⟩ := Option.map_eq_some_iff.1 halves
        obtain ⟨rfl, rfl⟩ := Prod.mk.inj same
        exact ⟨ih.table, rfl, rfl⟩
  | splitRight _ halves ih =>
      unfold CharChunk.splitChunk at halves
      dsimp only at halves
      split at halves
      · obtain ⟨_, _, same⟩ := Option.map_eq_some_iff.1 halves
        obtain ⟨rfl, rfl⟩ := Prod.mk.inj same
        exact ⟨ih.table, ih.attributes, ih.snapshot⟩
      · obtain ⟨_, _, same⟩ := Option.map_eq_some_iff.1 halves
        obtain ⟨rfl, rfl⟩ := Prod.mk.inj same
        exact ⟨ih.table, ih.attributes, ih.snapshot⟩
  | setTransliterator t12r _ ih =>
      unfold Composition.setChunkTransliterator
      split
      · exact ih
      · exact ⟨ih.table, ih.attributes, ih.snapshot⟩

end Plain

/-! ## Inserting into a composition -/

namespace Composition

variable {forms : CharacterForms} {comp comp' : Composition} {fuel pos : Nat}

theorem raw_combinePendingChunks (comp : Composition) (nextInput : Text) (chunks : List CharChunk)
    (it : CharChunk) :
    rawText (comp.combinePendingChunks nextInput chunks it).1.reverse ++
        (comp.combinePendingChunks nextInput chunks it).2.raw =
      rawText chunks.reverse ++ it.raw := by
  induction chunks generalizing it with
  | nil => rfl
  | cons left rest ih =>
      rw [combinePendingChunks]
      split
      · rw [ih, Plain.raw_combine, List.reverse_cons, rawText_append, rawText_cons, rawText_nil,
          List.append_nil, List.append_assoc]
      · rfl

theorem plain_combinePendingChunks {nextInput : Text} {chunks : List CharChunk} {it : CharChunk}
    (plain : Plain it) : Plain (comp.combinePendingChunks nextInput chunks it).2 := by
  induction chunks generalizing it with
  | nil => exact plain
  | cons left rest ih =>
      rw [combinePendingChunks]
      split
      · exact ih plain.combine
      · exact plain

theorem raw_insertLoop (hides : NeverHides comp.table.table) {c last : CharChunk}
    {input : CompositionInput} {full : List CharChunk} (plain : Plain c)
    (textOnly : input.conversion = []) (visible : Visible (c.raw ++ input.raw))
    (inserted : comp.insertLoop fuel c input = some (full, last)) :
    rawText full ++ last.raw = c.raw ++ input.raw := by
  induction fuel generalizing c input full with
  | zero => cases inserted
  | succ fuel ih =>
      rw [insertLoop] at inserted
      split at inserted
      · cases inserted
      · next c' rest added =>
        obtain ⟨kept, restText⟩ := plain.raw_addCompositionInput textOnly visible added
        split at inserted
        · next isEmpty =>
          obtain ⟨rfl, rfl⟩ := Prod.mk.inj (Option.some_inj.1 inserted)
          have nothing : rest.raw = [] := by
            unfold CompositionInput.isEmpty at isEmpty
            rw [Bool.and_eq_true] at isEmpty
            exact List.isEmpty_iff.1 isEmpty.1
          rw [nothing, List.append_nil] at kept
          exact kept
        · obtain ⟨⟨more, end_⟩, loops, same⟩ := Option.map_eq_some_iff.1 inserted
          obtain ⟨rfl, rfl⟩ := Prod.mk.inj same
          have visibleRest : Visible rest.raw := by
            rw [← kept] at visible
            exact (Visible.append_iff.1 visible).2
          have loopsKept : rawText more ++ end_.raw = rest.raw :=
            @ih _ { rest with isNewInput := false } _ (Plain.new hides) restText visibleRest loops
          rw [rawText_cons, List.append_assoc, loopsKept]
          exact kept

/-- **Inserting in front of an iterator adds the text to the raw texts in front of it.** -/
theorem raw_insertBefore (hides : NeverHides comp.table.table) {front front' : List CharChunk}
    {input : CompositionInput} (plain : ∀ c ∈ front, Plain c) (textOnly : input.conversion = [])
    (visible : Visible (rawText front ++ input.raw))
    (inserted : comp.insertBefore fuel front input = some front') :
    rawText front' = rawText front ++ input.raw := by
  unfold insertBefore at inserted
  have place : rawText (comp.getInsertionChunk front).1 ++ (comp.getInsertionChunk front).2.raw =
      rawText front ∧ Plain (comp.getInsertionChunk front).2 := by
    unfold getInsertionChunk
    split
    · next nothing =>
      rw [List.getLast?_eq_none_iff.1 nothing]
      exact ⟨rfl, .new hides⟩
    · next left isLast =>
      split
      · refine ⟨?_, plain left (List.mem_of_getLast? isLast)⟩
        have whole := List.dropLast_append_getLast? left isLast
        conv_rhs => rw [← whole]
        rw [rawText_append, rawText_cons, rawText_nil, List.append_nil]
      · exact ⟨List.append_nil _, .new hides⟩
  generalize comp.getInsertionChunk front = place' at place inserted
  obtain ⟨before, it⟩ := place'
  obtain ⟨isFront, plainIt⟩ := place
  dsimp only at isFront plainIt inserted
  have combined : ∀ place : List CharChunk × CharChunk,
      place = (if input.isAsis then (before.reverse, it)
        else comp.combinePendingChunks
          (if input.conversion.isEmpty then input.raw else input.conversion) before.reverse it) →
      rawText place.1.reverse ++ place.2.raw = rawText front ∧ Plain place.2 := by
    rintro place rfl
    split
    · rw [List.reverse_reverse]
      exact ⟨isFront, plainIt⟩
    · rw [raw_combinePendingChunks, List.reverse_reverse]
      exact ⟨isFront, plain_combinePendingChunks plainIt⟩
  obtain ⟨kept, plainLast⟩ := combined _ rfl
  obtain ⟨⟨full, last⟩, loops, rfl⟩ := Option.map_eq_some_iff.1 inserted
  rw [← kept, List.append_assoc] at visible
  have looped := raw_insertLoop hides plainLast textOnly (Visible.append_iff.1 visible).2 loops
  have lastRaw : rawText (if isBlank last then [] else [last]) = last.raw := by
    split
    · next blank =>
      unfold isBlank at blank
      rw [Bool.and_eq_true, Bool.and_eq_true] at blank
      exact (List.isEmpty_iff.1 blank.1.1).symm
    · exact List.append_nil _
  rw [rawText_append, rawText_append, lastRaw, List.append_assoc, looped, ← List.append_assoc, kept]

/-! ## The end of a composition -/

/-- At the end, nothing is split, what is behind the iterator shows nothing, and the chunk of the
iterator shows something unless it is the first one. -/
theorem getChunkAt_end (forms : CharacterForms) (t12r : Transliterator) (chunks : List CharChunk) :
    (∃ c behind front,
        getChunkAt forms t12r chunks (getPosition forms t12r chunks) =
          (front, c :: behind, c.getLength forms t12r) ∧ front ++ c :: behind = chunks ∧
        (∀ d ∈ behind, d.getLength forms t12r = 0) ∧
        (c.getLength forms t12r = 0 → front = [])) ∨
      chunks = [] := by
  induction chunks with
  | nil => exact .inr rfl
  | cons c rest ih =>
      refine .inl ?_
      cases rest with
      | nil =>
          refine ⟨c, [], [], ?_, rfl, by simp, fun _ => rfl⟩
          change ([], [c], min (c.getLength forms t12r + 0) (c.getLength forms t12r)) = _
          rw [Nat.add_zero, Nat.min_self]
      | cons next rest =>
          have total : getPosition forms t12r (c :: next :: rest) =
              c.getLength forms t12r + getPosition forms t12r (next :: rest) := rfl
          rw [getChunkAt, total]
          dsimp only
          by_cases less : c.getLength forms t12r <
              c.getLength forms t12r + getPosition forms t12r (next :: rest)
          · rw [if_pos less, Nat.add_sub_cancel_left]
            rcases ih with ⟨d, behind, front, found, parts, silent, first⟩ | nothing
            · rw [found]
              refine ⟨d, behind, c :: front, rfl, congrArg (c :: ·) parts, silent, fun none => ?_⟩
              -- all chunks behind the first one would show nothing
              obtain rfl := first none
              rw [List.nil_append] at parts
              have whole : getPosition forms t12r (next :: rest)
                  = d.getLength forms t12r + (behind.map fun c => c.getLength forms t12r).sum := by
                rw [← parts]
                rfl
              rw [none, List.sum_eq_zero (by simpa using silent)] at whole
              omega
            · cases nothing
          · rw [if_neg less]
            have noMore : getPosition forms t12r (next :: rest) = 0 := by omega
            rw [noMore, Nat.add_zero]
            refine ⟨c, next :: rest, [], rfl, rfl, fun d member => ?_, fun _ => rfl⟩
            exact List.sum_eq_zero_iff.1 noMore _ (List.mem_map_of_mem member)

/-- The chunks at the end that show nothing in their own modes. -/
def silentEnd (forms : CharacterForms) (chunks : List CharChunk) : List CharChunk :=
  chunks.rtakeWhile fun c => decide (c.getLength forms .localChoice = 0)

/-- At the end, the composition is split in front of the chunks that show nothing. -/
theorem maybeSplitChunkAt_end (forms : CharacterForms) (chunks : List CharChunk) :
    ∃ front, maybeSplitChunkAt forms chunks (getLength forms chunks)
        = some (front, silentEnd forms chunks) ∧
      front ++ silentEnd forms chunks = chunks := by
  rcases getChunkAt_end forms .localChoice chunks with
    ⟨c, behind, front, found, parts, silent, first⟩ | rfl
  · unfold maybeSplitChunkAt getLength silentEnd
    rw [found, ← parts]
    have silent' : ∀ d ∈ behind, decide (d.getLength forms .localChoice = 0) = true :=
      fun d member => decide_eq_true (silent d member)
    dsimp only
    by_cases none : c.getLength forms .localChoice = 0
    · obtain rfl := first none
      have all : ∀ d ∈ c :: behind, decide (d.getLength forms .localChoice = 0) = true :=
        List.forall_mem_cons.2 ⟨decide_eq_true none, silent'⟩
      rw [if_pos ⟨rfl, none⟩, List.nil_append, List.rtakeWhile_eq_self_iff.2 all]
      exact ⟨[], rfl, rfl⟩
    · rw [if_neg fun both => none both.2, if_pos rfl]
      have isEnd : (front ++ c :: behind).rtakeWhile
          (fun c => decide (c.getLength forms .localChoice = 0)) = behind := by
        rw [List.rtakeWhile, List.reverse_append, List.reverse_cons, List.append_assoc,
          List.takeWhile_append_of_pos (by simpa using silent'), List.singleton_append,
          List.takeWhile_cons_of_neg (by simpa using none), List.append_nil, List.reverse_reverse]
      rw [isEnd]
      exact ⟨front ++ [c], rfl, by simp⟩
  · exact ⟨[], rfl, rfl⟩

/-- The chunks that stay right of a text that is inserted at the end: of those at the end that show
nothing in their own modes, the ones from the first on that shows something in the mode of the
input. -/
def rightOfEnd (forms : CharacterForms) (comp : Composition) : List CharChunk :=
  (silentEnd forms comp.chunks).dropWhile fun c => decide (c.getLength forms comp.inputT12r = 0)

theorem insertionPoint_end (forms : CharacterForms) (comp : Composition) :
    ∃ front, comp.insertionPoint forms (getLength forms comp.chunks) =
        some (front, comp.rightOfEnd forms) ∧
      front ++ comp.rightOfEnd forms = comp.chunks := by
  obtain ⟨front, split, parts⟩ := maybeSplitChunkAt_end forms comp.chunks
  unfold rightOfEnd insertionPoint
  rw [split]
  refine ⟨_, rfl, ?_⟩
  rw [List.append_assoc, List.takeWhile_append_dropWhile]
  exact parts

/-- Texts join at both ends to the same text. -/
theorem append_insert_iff (front right text : Text) :
    front ++ text ++ right = front ++ right ++ text ↔ text ++ right = right ++ text := by
  rw [List.append_assoc, List.append_assoc, List.append_cancel_left_eq]

end Composition

open Mozkey.Composer.Composition

/-- **What was typed is kept.**  In every chunk that is reached a step keeps the raw text in front
of the rest of the input, and combining chunks joins their raw texts.  A text inserted at the end
of a composition that is reached is put behind what was typed before exactly when it commutes with
the raw text of the chunks that stay right of it. -/
theorem rawKept_iff (forms : CharacterForms) :
    (∀ c input done, ReachedChunk NeverHides c → Visible input →
      c.addInputInternal input = some done → done.1.raw ++ done.2.2 = c.raw ++ input) ∧
    (∀ c left : CharChunk, (c.combine left).raw = left.raw ++ c.raw) ∧
    (∀ comp comp' fuel text pos, Reached forms NeverHides comp →
      Visible (rawText comp.chunks ++ text) →
      comp.insertAt forms fuel (getLength forms comp.chunks) text = some (comp', pos) →
      (rawText comp'.chunks = rawText comp.chunks ++ text ↔
        text ++ rawText (comp.rightOfEnd forms) = rawText (comp.rightOfEnd forms) ++ text)) := by
  refine ⟨?_, Plain.raw_combine, ?_⟩
  · intro c input done reached visible stepped
    exact (Plain.of_reached reached).raw_step visible (CharChunk.step_of_eq_some stepped)
  · intro comp comp' fuel text pos reached visible inserted
    obtain ⟨hides, chunks⟩ := reached.chunks
    obtain ⟨front, point, parts⟩ := insertionPoint_end forms comp
    unfold insertAt insertInput at inserted
    split at inserted
    · next isEmpty =>
      have nothing : text = [] := by
        unfold CompositionInput.isEmpty at isEmpty
        rw [Bool.and_eq_true] at isEmpty
        exact List.isEmpty_iff.1 isEmpty.1
      obtain ⟨rfl, rfl⟩ := Prod.mk.inj (Option.some_inj.1 inserted)
      rw [nothing, List.append_nil, List.append_nil]
      exact iff_of_true rfl rfl
    · rw [point, Option.bind_some] at inserted
      obtain ⟨front', before, same⟩ := Option.map_eq_some_iff.1 inserted
      obtain ⟨rfl, rfl⟩ := Prod.mk.inj same
      have plain : ∀ c ∈ front, Plain c := by
        intro c member
        refine Plain.of_reached (chunks c ?_)
        rw [← parts]
        exact List.mem_append_left _ member
      rw [← parts, rawText_append] at visible ⊢
      have visibleFront : Visible (rawText front ++ text) := by
        obtain ⟨both, visibleText⟩ := Visible.append_iff.1 visible
        exact Visible.append_iff.2 ⟨(Visible.append_iff.1 both).1, visibleText⟩
      have kept := raw_insertBefore hides plain rfl visibleFront before
      rw [rawText_append, kept]
      exact append_insert_iff _ _ _

/-- Forms that leave the characters as they are. -/
def sameForms : CharacterForms := ⟨id, id, id, id, id, id⟩

/-- A rule that shows nothing for a letter. -/
def addSilentRule : Option Table := Table.new.addRule 9 ['a'] [] []

theorem neverHides_of_silentRule {t : Table} (added : addSilentRule = some t) : NeverHides t := by
  have all : t.AllAttributes fun attributes => attributes.noTransliteration = false := by
    unfold addSilentRule Table.addRule at added
    exact Table.allAttributes_addRule Table.allAttributes_new rfl rfl added
  intro _ entry found
  exact all _ entry found

/-- The letter with the silent rule is typed, the mode is changed, and another letter is typed. -/
def typeAcrossModes (t12r : Transliterator) : Option (Composition × Composition × Nat) :=
  addSilentRule.bind fun t =>
    ((⟨⟨0, t⟩, [], .hiragana⟩ : Composition).insertAt sameForms 9 0 ['a']).bind fun typed =>
      let changed := typed.1.setInputMode t12r
      (changed.insertAt sameForms 9 (getLength sameForms changed.chunks) ['b']).map
        fun (last, pos) => (changed, last, pos)

theorem reached_typeAcrossModes {t12r : Transliterator} {comp last : Composition} {pos : Nat}
    (run : typeAcrossModes t12r = some (comp, last, pos)) :
    Reached sameForms NeverHides comp ∧
      comp.insertAt sameForms 9 (getLength sameForms comp.chunks) ['b'] = some (last, pos) := by
  obtain ⟨t, added, run⟩ := Option.bind_eq_some_iff.1 run
  obtain ⟨⟨typed, p⟩, first, run⟩ := Option.bind_eq_some_iff.1 run
  obtain ⟨⟨final, q⟩, second, same⟩ := Option.map_eq_some_iff.1 run
  obtain ⟨rfl, rest⟩ := Prod.mk.inj same
  obtain ⟨rfl, rfl⟩ := Prod.mk.inj rest
  refine ⟨.setInputMode t12r (.insertInput (.new 0 .hiragana ?_) first), second⟩
  exact neverHides_of_silentRule added

theorem exists_typeAcrossModes (t12r : Transliterator)
    (check : Composition → Composition → Bool)
    (checked : (typeAcrossModes t12r).any (fun run => check run.1 run.2.1) = true) :
    ∃ comp last pos, typeAcrossModes t12r = some (comp, last, pos) ∧ check comp last = true := by
  cases run : typeAcrossModes t12r with
  | none =>
      rw [run] at checked
      cases checked
  | some result =>
      rw [run] at checked
      exact ⟨result.1, result.2.1, result.2.2, rfl, checked⟩

/-- A step of a new chunk keeps its input, and with the mode kept, the text is put at the end. -/
theorem rawKept_sameMode :
    (∃ done, (CharChunk.new .hiragana ⟨0, Table.new⟩).addInputInternal ['a'] = some done ∧
      done.1.raw ++ done.2.2 = ['a']) ∧
    ∃ comp last pos, typeAcrossModes .hiragana = some (comp, last, pos) ∧
      rawText last.chunks = rawText comp.chunks ++ ['b'] := by
  constructor
  · have hides : NeverHides Table.new := fun _ entry found =>
      (Table.allAttributes_new : Table.new.AllAttributes fun _ => False) _ entry found |>.elim
    obtain ⟨done, stepped⟩ : ∃ done,
        (CharChunk.new .hiragana ⟨0, Table.new⟩).addInputInternal ['a'] = some done :=
      Option.isSome_iff_exists.1 (by decide +kernel)
    exact ⟨done, stepped, (rawKept_iff sameForms).1 _ ['a'] done (.new .hiragana 0 hides)
      (by decide) stepped⟩
  · obtain ⟨comp, last, pos, run, checked⟩ := exists_typeAcrossModes .hiragana
      (fun comp _ => decide (Visible (rawText comp.chunks ++ ['b'])) &&
        (comp.rightOfEnd sameForms).isEmpty) (by decide +kernel)
    rw [Bool.and_eq_true, decide_eq_true_eq, List.isEmpty_iff] at checked
    obtain ⟨visible, nothing⟩ := checked
    obtain ⟨reached, inserted⟩ := reached_typeAcrossModes run
    refine ⟨comp, last, pos, run, ?_⟩
    refine ((rawKept_iff sameForms).2.2 comp last 9 ['b'] pos reached visible inserted).2 ?_
    rw [nothing, rawText_nil, List.append_nil, List.nil_append]

/-- **Typing in another mode can put a text in front of what was typed before.** -/
theorem not_rawKept : ¬ ∀ forms comp comp' fuel text pos, Reached forms NeverHides comp →
    Visible (rawText comp.chunks ++ text) →
    comp.insertAt forms fuel (getLength forms comp.chunks) text = some (comp', pos) →
    rawText comp'.chunks = rawText comp.chunks ++ text := by
  intro kept
  obtain ⟨comp, last, pos, run, checked⟩ := exists_typeAcrossModes .halfAscii
    (fun comp last => decide (Visible (rawText comp.chunks ++ ['b'])) &&
      decide (rawText last.chunks ≠ rawText comp.chunks ++ ['b'])) (by decide +kernel)
  rw [Bool.and_eq_true, decide_eq_true_eq, decide_eq_true_eq] at checked
  obtain ⟨visible, other⟩ := checked
  obtain ⟨reached, inserted⟩ := reached_typeAcrossModes run
  exact other (kept sameForms comp last 9 ['b'] pos reached visible inserted)

end Mozkey.Composer
