import Mozkey.Base.Utf8SubString
import Mozkey.Converter.InnerSegmentBoundary
import Mozkey.Converter.Segments

/-!
# Resizing segments

`Segments::Resize` takes the keys of as many segments as the new sizes need, cuts them into
segments of these sizes, and gives what is left of the last key to the segment behind it.

The sizes are added up in an `int`.  A sum of `2³¹` or more wraps around, and segments are then cut
although the keys are shorter than the sizes.  `Resize` does what it is for exactly when that makes
no difference.
-/

namespace Mozkey.Converter

/-- `Segment::key_len`. -/
def Segment.keyLen (segment : Segment) : Nat := charsLen segment.key

/-! ## The function -/

/-- `Segments::insert_segment`, and what is then set of the segment. -/
def insertSegment (i : Nat) (segment : Segment) (segments : List Segment) : List Segment :=
  segments.take i ++ segment :: segments.drop i

/-- `Segments::erase_segments`. -/
def eraseSegments (i size : Nat) (segments : List Segment) : List Segment :=
  if segments.length ≤ i ∨ segments.length < i + size then segments
  else segments.take i ++ segments.drop (i + size)

/-- The keys that are to be cut, their length, and the number of their segments. -/
def collectKeys (totalSize : Nat) : ByteString → Nat → Nat → List Segment → ByteString × Nat × Nat
  | key, keyLen, modified, [] => (key, keyLen, modified)
  | key, keyLen, modified, segment :: segments =>
      if totalSize ≤ keyLen + segment.keyLen then
        (key ++ segment.key, keyLen + segment.keyLen, modified + 1)
      else
        collectKeys totalSize (key ++ segment.key) (keyLen + segment.keyLen) (modified + 1) segments

/-- The new keys, and the number of characters that they take. -/
def newKeys (key : ByteString) (keyLen : Nat) : Nat → List UInt8 → List ByteString × Nat
  | consumed, [] => ([], consumed)
  | consumed, newSize :: newSizes =>
      if newSize ≠ 0 ∧ consumed < keyLen then
        let others := newKeys key keyLen (consumed + newSize.toNat) newSizes
        (utf8SubString key consumed newSize.toNat :: others.1, others.2)
      else newKeys key keyLen consumed newSizes

def insertKeys : Nat → List ByteString → List Segment → List Segment
  | _, [], segments => segments
  | i, key :: keys, segments =>
      insertKeys (i + 1) keys
        (insertSegment i { segmentType := .fixedBoundary, key := key } segments)

/-- What is left of the keys is put in front of the key at an index. -/
def prependRemaining (i : Nat) (remaining : ByteString) (segments : List Segment) :
    List Segment :=
  match segments[i]? with
  | some next =>
      insertSegment i { segmentType := .free, key := remaining ++ next.key }
        (eraseSegments i 1 segments)
  | none => insertSegment i { segmentType := .free, key := remaining } segments

/-- The sum of the sizes, an `int` that is then a `size_t`. -/
def totalSizeOf (newSizes : List UInt8) : Nat :=
  asSize (newSizes.foldl (fun (sum : Int) newSize => asInt (sum + newSize.toNat)) 0)

/-- `Segments::Resize`.  An index of `2⁶³` or more fails a `CHECK`. -/
def Segments.resize (segments : Segments) (startIndex : Nat) (newSizes : List UInt8) :
    Bool × Segments :=
  let totalSize := totalSizeOf newSizes
  if totalSize = 0 then (false, segments)
  else
    let (key, keyLen, modified) :=
      collectKeys totalSize [] 0 0 (segments.segments.drop startIndex)
    if keyLen = 0 ∨ keyLen < totalSize then (false, segments)
    else
      let (keys, consumed) := newKeys key keyLen 0 newSizes
      let inserted :=
        insertKeys startIndex keys (eraseSegments startIndex modified segments.segments)
      (true, { segments with
        segments :=
          if consumed < keyLen then
            prependRemaining (startIndex + keys.length)
              (utf8SubString key consumed (keyLen - consumed)) inserted
          else inserted
        resized := true })

/-! ## What it is for -/

/-- The sizes that ask for a segment. -/
def requested (newSizes : List UInt8) : List Nat :=
  (newSizes.filter (· ≠ 0)).map UInt8.toNat

/-- The type and the length of a segment. -/
def Segment.shape (segment : Segment) : SegmentType × Nat := (segment.segmentType, segment.keyLen)

/-- Segments with what is left of a key in front of the first of them. -/
def withRemaining (remaining : ByteString) : List Segment → List Segment
  | [] => if remaining = [] then [] else [{ segmentType := .free, key := remaining }]
  | next :: others =>
      if remaining = [] then next :: others
      else { segmentType := .free, key := remaining ++ next.key } :: others

/-- Segments are cut to sizes: the new segments take the whole keys of some segments and the front
of the key of another one, whose rest goes to the segment behind it. -/
def Cut (sizes : List Nat) (before after : List Segment) : Prop :=
  ∃ fixed taken last others consumed remaining,
    before = taken ++ last :: others ∧ last.key = consumed ++ remaining ∧ consumed ≠ [] ∧
      fixed.map Segment.shape = sizes.map (fun size => (SegmentType.fixedBoundary, size)) ∧
      fixed.flatMap (·.key) = taken.flatMap (·.key) ++ consumed ∧
      after = fixed ++ withRemaining remaining others

structure Resized (before after : Segments) (startIndex : Nat) (newSizes : List UInt8) : Prop where
  keys : after.segments.flatMap (·.key) = before.segments.flatMap (·.key)
  front : after.segments.take startIndex = before.segments.take startIndex
  cut : Cut (requested newSizes) (before.segments.drop startIndex)
    (after.segments.drop startIndex)

/-- `Resize` either resizes or leaves everything as it is. -/
def ResizeHolds (segments : Segments) (startIndex : Nat) (newSizes : List UInt8) : Prop :=
  if (segments.resize startIndex newSizes).1 = true then
    Resized segments (segments.resize startIndex newSizes).2 startIndex newSizes
  else (segments.resize startIndex newSizes).2 = segments

/-- The fewest leading segments whose keys have that many characters, or all of them. -/
def leading (total : Nat) : List Segment → List Segment
  | [] => []
  | segment :: segments =>
      if total ≤ segment.keyLen then [segment]
      else segment :: leading (total - segment.keyLen) segments

def keyLens (segments : List Segment) : Nat := (segments.map Segment.keyLen).sum

/-- The wrapped sum makes no difference: there is none, or nothing is to be done, or the keys are
too short for it too, or the leading keys that are as long as it have all the characters, or the
segments behind them are already cut as requested. -/
def SizesFit (segments : List Segment) (newSizes : List UInt8) : Prop :=
  let sizes := requested newSizes
  let totalSize := totalSizeOf newSizes
  let front := leading totalSize segments
  sizes.sum < 2 ^ 31 ∨ totalSize = 0 ∨ keyLens segments < totalSize ∨
    sizes.sum ≤ keyLens front ∨
    ∃ k < sizes.length, (sizes.take k).sum = keyLens front ∧
      ((segments.drop front.length).take (sizes.length - k)).map Segment.shape =
        (sizes.drop k).map fun size => (SegmentType.fixedBoundary, size)

/-! ## Sums -/

theorem requested_cons (newSize : UInt8) (newSizes : List UInt8) :
    requested (newSize :: newSizes) =
      if newSize ≠ 0 then newSize.toNat :: requested newSizes else requested newSizes := by
  unfold requested
  by_cases zero : newSize = 0
  · rw [if_neg (not_not.2 zero), List.filter_cons_of_neg (by simpa using zero)]
  · rw [if_pos zero, List.filter_cons_of_pos (by simpa using zero), List.map_cons]

theorem requested_pos {newSizes : List UInt8} : ∀ size ∈ requested newSizes, 0 < size := by
  intro size member
  obtain ⟨newSize, inside, rfl⟩ := List.mem_map.1 member
  have nonzero : newSize ≠ 0 := by simpa using (List.mem_filter.1 inside).2
  exact Nat.pos_of_ne_zero fun zero => nonzero (UInt8.toNat_inj.1 zero)

theorem totalSizeOf_eq (newSizes : List UInt8) :
    totalSizeOf newSizes = asSize (asInt (requested newSizes).sum) := by
  have folded : ∀ n : Nat,
      newSizes.foldl (fun (sum : Int) newSize => asInt (sum + newSize.toNat)) (asInt n) =
        asInt ((n + (requested newSizes).sum : Nat) : Int) := by
    induction newSizes with
    | nil =>
        intro n
        rw [List.foldl_nil, requested, List.filter_nil, List.map_nil, List.sum_nil, Nat.add_zero]
    | cons newSize newSizes ih =>
        intro n
        rw [List.foldl_cons, asInt_asInt_add, ih, requested_cons]
        split
        · rw [List.sum_cons, Nat.add_assoc]
        · next zero => rw [not_not.1 zero, UInt8.toNat_zero, Nat.add_zero]
  have total := folded 0
  have start : asInt ((0 : Nat) : Int) = 0 := by norm_num [asInt]
  rw [start, Nat.zero_add] at total
  rw [totalSizeOf, total]

/-- A sum that is small enough for keys is the sum of the sizes, or that sum wrapped around. -/
theorem asSize_asInt_le {n : Nat} (small : asSize (asInt n) < 2 ^ 63) : asSize (asInt n) ≤ n := by
  unfold asSize asInt at *
  omega

/-! ## Leading segments -/

theorem keyLens_cons (segment : Segment) (segments : List Segment) :
    keyLens (segment :: segments) = segment.keyLen + keyLens segments := by
  rw [keyLens, List.map_cons, List.sum_cons]
  rfl

theorem keyLens_append (segments more : List Segment) :
    keyLens (segments ++ more) = keyLens segments + keyLens more := by
  rw [keyLens, List.map_append, List.sum_append]
  rfl

theorem collectKeys_eq {total keyLen : Nat} (less : keyLen < total) (key : ByteString)
    (modified : Nat) (segments : List Segment) :
    collectKeys total key keyLen modified segments =
      (key ++ (leading (total - keyLen) segments).flatMap (·.key),
        keyLen + keyLens (leading (total - keyLen) segments),
        modified + (leading (total - keyLen) segments).length) := by
  induction segments generalizing key keyLen modified with
  | nil =>
      rw [collectKeys, leading, List.flatMap_nil, List.append_nil]
      rfl
  | cons segment segments ih =>
      rw [collectKeys, leading]
      by_cases enough : total ≤ keyLen + segment.keyLen
      · rw [if_pos enough, if_pos (Nat.sub_le_iff_le_add'.2 enough), List.flatMap_singleton]
        rfl
      · rw [if_neg enough, if_neg (by omega), ih (Nat.lt_of_not_le enough), List.flatMap_cons,
          keyLens_cons, List.length_cons, Nat.sub_sub, List.append_assoc]
        simp only [Prod.mk.injEq, true_and]
        omega

theorem leading_isPrefix (total : Nat) (segments : List Segment) :
    leading total segments <+: segments := by
  induction segments generalizing total with
  | nil => exact List.prefix_rfl
  | cons segment segments ih =>
      rw [leading]
      split
      · exact List.cons_prefix_cons.2 ⟨rfl, List.nil_prefix⟩
      · exact List.cons_prefix_cons.2 ⟨rfl, ih _⟩

/-- Leading segments that are too short are all there are. -/
theorem leading_of_lt {total : Nat} {segments : List Segment}
    (short : keyLens (leading total segments) < total) : leading total segments = segments := by
  induction segments generalizing total with
  | nil => rfl
  | cons segment segments ih =>
      rw [leading] at short ⊢
      split at short
      · next enough =>
        rw [keyLens_cons] at short
        omega
      · next less =>
        rw [keyLens_cons] at short
        rw [if_neg less, ih (by omega)]

/-- Only the last of the leading segments makes up the number. -/
theorem leading_eq_append {total : Nat} {segments : List Segment} (some_ : total ≠ 0)
    (enough : total ≤ keyLens (leading total segments)) :
    ∃ taken last, leading total segments = taken ++ [last] ∧ keyLens taken < total := by
  induction segments generalizing total with
  | nil => exact absurd (Nat.le_zero.1 enough) some_
  | cons segment segments ih =>
      rw [leading] at enough ⊢
      split
      · exact ⟨[], segment, rfl, Nat.pos_of_ne_zero some_⟩
      · next less =>
        rw [if_neg less, keyLens_cons] at enough
        have deeper : total - segment.keyLen ≤
            keyLens (leading (total - segment.keyLen) segments) := by omega
        obtain ⟨taken, last, is, short⟩ := ih (by omega) deeper
        refine ⟨segment :: taken, last, by rw [is]; rfl, ?_⟩
        rw [keyLens_cons]
        omega

/-- The characters of the keys. -/
theorem exists_pieces {segments : List Segment} (whole : ∀ s ∈ segments, Whole s.key) :
    ∃ pieces : List ByteString, (∀ piece ∈ pieces, IsCharacter piece) ∧
      pieces.flatten = segments.flatMap (·.key) ∧ pieces.length = keyLens segments := by
  induction segments with
  | nil => exact ⟨[], by simp, rfl, rfl⟩
  | cons segment segments ih =>
      rw [List.forall_mem_cons] at whole
      obtain ⟨pieces, each, is⟩ := whole.1
      obtain ⟨others, eachOther, isOthers, length⟩ := ih whole.2
      refine ⟨pieces ++ others, List.forall_mem_append.2 ⟨each, eachOther⟩, ?_, ?_⟩
      · rw [List.flatten_append, is, isOthers, List.flatMap_cons]
      · rw [List.length_append, length, keyLens_cons, Segment.keyLen, ← is, charsLen_flatten each]

/-! ## Cutting -/

/-- Characters cut to sizes, as long as there are any. -/
def cutPieces : List ByteString → List Nat → List (List ByteString)
  | _, [] => []
  | pieces, size :: sizes =>
      if pieces = [] then [] else pieces.take size :: cutPieces (pieces.drop size) sizes

theorem cutPieces_nil (sizes : List Nat) : cutPieces [] sizes = [] := by
  cases sizes <;> rfl

section Cutting

variable {pieces : List ByteString} {sizes : List Nat}

/-- The new keys are cut out of the characters. -/
theorem newKeys_eq (each : ∀ piece ∈ pieces, IsCharacter piece) (consumed : Nat)
    (newSizes : List UInt8) :
    newKeys pieces.flatten pieces.length consumed newSizes =
      ((cutPieces (pieces.drop consumed) (requested newSizes)).map List.flatten,
        consumed + ((requested newSizes).take
          (cutPieces (pieces.drop consumed) (requested newSizes)).length).sum) := by
  induction newSizes generalizing consumed with
  | nil => rfl
  | cons newSize newSizes ih =>
      rw [newKeys, requested_cons]
      by_cases zero : newSize = 0
      · rw [if_neg fun both => both.1 zero, if_neg (not_not.2 zero), ih]
      by_cases inside : consumed < pieces.length
      · have some_ : pieces.drop consumed ≠ [] := by
          rw [ne_eq, List.drop_eq_nil_iff]
          exact Nat.not_le.2 inside
        rw [if_pos ⟨zero, inside⟩, if_pos zero, ih, cutPieces, if_neg some_, List.map_cons,
          List.drop_drop, List.length_cons, List.take_succ_cons, List.sum_cons, Nat.add_assoc,
          utf8SubString_flatten each]
      · have none_ : pieces.drop consumed = [] := List.drop_eq_nil_of_le (Nat.le_of_not_lt inside)
        rw [if_neg fun both => inside both.2, if_pos zero, ih, none_, cutPieces_nil, cutPieces_nil]
        rfl

theorem length_cutPieces_le (pieces : List ByteString) (sizes : List Nat) :
    (cutPieces pieces sizes).length ≤ sizes.length := by
  induction sizes generalizing pieces with
  | nil => exact Nat.le_refl 0
  | cons size sizes ih =>
      rw [cutPieces]
      split
      · exact Nat.zero_le _
      · exact Nat.succ_le_succ (ih _)

/-- Together the parts are the first characters. -/
theorem flatten_cutPieces (pieces : List ByteString) (sizes : List Nat) :
    (cutPieces pieces sizes).flatten =
      pieces.take (sizes.take (cutPieces pieces sizes).length).sum := by
  induction sizes generalizing pieces with
  | nil => rfl
  | cons size sizes ih =>
      rw [cutPieces]
      split
      · rfl
      · rw [List.flatten_cons, List.length_cons, List.take_succ_cons, List.sum_cons, List.take_add,
          ih]

/-- Too few characters are all taken. -/
theorem le_sum_cutPieces (short : pieces.length < sizes.sum) :
    pieces.length ≤ (sizes.take (cutPieces pieces sizes).length).sum := by
  induction sizes generalizing pieces with
  | nil => cases short
  | cons size sizes ih =>
      rw [cutPieces]
      split
      · next none_ =>
        rw [none_]
        exact Nat.zero_le _
      · rw [List.sum_cons] at short
        rw [List.length_cons, List.take_succ_cons, List.sum_cons]
        by_cases more : pieces.length ≤ size
        · omega
        · have fewer : (pieces.drop size).length < sizes.sum := by
            rw [List.length_drop]
            omega
          have others := ih fewer
          rw [List.length_drop] at others
          omega

/-- Sizes that the characters are enough for are met. -/
theorem map_length_cutPieces (positive : ∀ size ∈ sizes, 0 < size)
    (enough : sizes.sum ≤ pieces.length) : (cutPieces pieces sizes).map List.length = sizes := by
  induction sizes generalizing pieces with
  | nil => rfl
  | cons size sizes ih =>
      rw [List.forall_mem_cons] at positive
      rw [List.sum_cons] at enough
      have some_ : pieces ≠ [] := by
        rintro rfl
        rw [List.length_nil] at enough
        omega
      rw [cutPieces, if_neg some_, List.map_cons, List.length_take_of_le (by omega),
        ih positive.2 (by rw [List.length_drop]; omega)]

/-- Sizes that use up the characters exactly end there. -/
theorem cutPieces_take (positive : ∀ size ∈ sizes, 0 < size) {k : Nat}
    (uses : (sizes.take k).sum = pieces.length) :
    cutPieces pieces sizes = cutPieces pieces (sizes.take k) := by
  induction sizes generalizing pieces k with
  | nil => rw [List.take_nil]
  | cons size sizes ih =>
      rw [List.forall_mem_cons] at positive
      cases k with
      | zero =>
          rw [List.take_zero, List.sum_nil] at uses
          rw [List.length_eq_zero_iff.1 uses.symm, cutPieces_nil, cutPieces_nil]
      | succ k =>
          rw [List.take_succ_cons, List.sum_cons] at uses
          have usesRest : (sizes.take k).sum = (pieces.drop size).length := by
            rw [List.length_drop]
            omega
          rw [List.take_succ_cons, cutPieces, cutPieces, ih positive.2 usesRest]

end Cutting

/-! ## The segments of the result -/

/-- A new segment. -/
def fixedSegment (key : ByteString) : Segment := { segmentType := .fixedBoundary, key := key }

theorem insertKeys_append (front behind : List Segment) (keys : List ByteString) :
    insertKeys front.length keys (front ++ behind) =
      front ++ (keys.map fixedSegment ++ behind) := by
  induction keys generalizing front with
  | nil => rfl
  | cons key keys ih =>
      have moved := ih (front ++ [fixedSegment key])
      rw [List.length_append, List.length_singleton, List.append_assoc] at moved
      rw [insertKeys, insertSegment, List.take_left, List.drop_left]
      exact moved.trans (by rw [List.append_assoc]; rfl)

theorem prependRemaining_append {remaining : ByteString} (some_ : remaining ≠ [])
    (front behind : List Segment) :
    prependRemaining front.length remaining (front ++ behind) =
      front ++ withRemaining remaining behind := by
  unfold prependRemaining
  cases behind with
  | nil =>
      rw [List.append_nil, List.getElem?_eq_none le_rfl, withRemaining, if_neg some_]
      dsimp only
      rw [insertSegment, List.take_length, List.drop_length]
  | cons next others =>
      rw [List.getElem?_append_right le_rfl, Nat.sub_self, List.getElem?_cons_zero, withRemaining,
        if_neg some_]
      dsimp only
      have erased : eraseSegments front.length 1 (front ++ next :: others) = front ++ others := by
        unfold eraseSegments
        rw [if_neg (by rw [List.length_append, List.length_cons]; omega), List.take_left,
          ← List.drop_drop, List.drop_left, List.drop_succ_cons, List.drop_zero]
      rw [erased, insertSegment, List.take_left, List.drop_left]

theorem withRemaining_nil (segments : List Segment) : withRemaining [] segments = segments := by
  cases segments <;> rfl

theorem flatMap_withRemaining (remaining : ByteString) (segments : List Segment) :
    (withRemaining remaining segments).flatMap (·.key) =
      remaining ++ segments.flatMap (·.key) := by
  by_cases none_ : remaining = []
  · rw [none_, withRemaining_nil, List.nil_append]
  · cases segments with
    | nil =>
        rw [withRemaining, if_neg none_]
        rfl
    | cons next others =>
        rw [withRemaining, if_neg none_, List.flatMap_cons, List.flatMap_cons, List.append_assoc]

section Resize

variable {segments : Segments} {startIndex : Nat} {newSizes : List UInt8}

/-- The segments from the start index on that are cut. -/
abbrev front (segments : Segments) (startIndex : Nat) (newSizes : List UInt8) : List Segment :=
  leading (totalSizeOf newSizes) (segments.segments.drop startIndex)

/-- The segments behind them. -/
abbrev behind (segments : Segments) (startIndex : Nat) (newSizes : List UInt8) : List Segment :=
  (segments.segments.drop startIndex).drop (front segments startIndex newSizes).length

theorem front_append_behind (segments : Segments) (startIndex : Nat) (newSizes : List UInt8) :
    front segments startIndex newSizes ++ behind segments startIndex newSizes =
      segments.segments.drop startIndex :=
  List.prefix_iff_eq_append.1 (leading_isPrefix _ _)

theorem resize_eq_false
    (refused : totalSizeOf newSizes = 0 ∨
      keyLens (front segments startIndex newSizes) < totalSizeOf newSizes) :
    segments.resize startIndex newSizes = (false, segments) := by
  unfold Segments.resize
  by_cases zero : totalSizeOf newSizes = 0
  · rw [if_pos zero]
  · rw [if_neg zero, collectKeys_eq (Nat.pos_of_ne_zero zero), Nat.sub_zero, Nat.zero_add]
    dsimp only
    rw [if_pos (.inr (refused.resolve_left zero))]

theorem front_ne_nil (some_ : totalSizeOf newSizes ≠ 0)
    (enough : totalSizeOf newSizes ≤ keyLens (front segments startIndex newSizes)) :
    front segments startIndex newSizes ≠ [] := by
  intro none_
  rw [none_] at enough
  exact some_ (Nat.le_zero.1 enough)

theorem length_take_of_enough (some_ : totalSizeOf newSizes ≠ 0)
    (enough : totalSizeOf newSizes ≤ keyLens (front segments startIndex newSizes)) :
    (segments.segments.take startIndex).length = startIndex := by
  apply List.length_take_of_le
  by_contra outside
  have split := front_append_behind segments startIndex newSizes
  rw [List.drop_eq_nil_of_le (Nat.le_of_not_le outside), List.append_eq_nil_iff] at split
  exact front_ne_nil some_ enough split.1

/-- **What `Resize` does** when it does not refuse. -/
theorem resize_eq_true (some_ : totalSizeOf newSizes ≠ 0)
    (enough : totalSizeOf newSizes ≤ keyLens (front segments startIndex newSizes))
    {pieces : List ByteString} (each : ∀ piece ∈ pieces, IsCharacter piece)
    (isFront : pieces.flatten = (front segments startIndex newSizes).flatMap (·.key))
    (length : pieces.length = keyLens (front segments startIndex newSizes)) :
    segments.resize startIndex newSizes =
      (true, { segments with
        segments := segments.segments.take startIndex ++
          (((cutPieces pieces (requested newSizes)).map List.flatten).map fixedSegment ++
            withRemaining (pieces.drop ((requested newSizes).take
              (cutPieces pieces (requested newSizes)).length).sum).flatten
              (behind segments startIndex newSizes))
        resized := true }) := by
  have inside := length_take_of_enough some_ enough
  have erased : eraseSegments startIndex (front segments startIndex newSizes).length
      segments.segments =
        segments.segments.take startIndex ++ behind segments startIndex newSizes := by
    have positive := List.length_pos_iff.2 (front_ne_nil some_ enough)
    have lengths := (leading_isPrefix (totalSizeOf newSizes)
      (segments.segments.drop startIndex)).length_le
    rw [List.length_drop] at lengths
    unfold eraseSegments
    rw [if_neg (by unfold front at *; omega), behind, List.drop_drop]
  have inserted (cut : List (List ByteString)) :
      insertKeys startIndex (cut.map List.flatten)
          (segments.segments.take startIndex ++ behind segments startIndex newSizes) =
        segments.segments.take startIndex ++
          ((cut.map List.flatten).map fixedSegment ++ behind segments startIndex newSizes) := by
    have keysIn := insertKeys_append (segments.segments.take startIndex)
      (behind segments startIndex newSizes) (cut.map List.flatten)
    rwa [inside] at keysIn
  unfold Segments.resize
  rw [if_neg some_, collectKeys_eq (Nat.pos_of_ne_zero some_), Nat.sub_zero, Nat.zero_add,
    Nat.zero_add, List.nil_append]
  dsimp only
  rw [if_neg (by unfold front at *; omega), ← isFront, ← length, newKeys_eq each, List.drop_zero,
    Nat.zero_add]
  dsimp only
  generalize cutPieces pieces (requested newSizes) = cut
  generalize ((requested newSizes).take cut.length).sum = consumed
  rw [erased, inserted]
  by_cases left : consumed < pieces.length
  · have rest : utf8SubString pieces.flatten consumed (pieces.length - consumed) =
        (pieces.drop consumed).flatten := by
      rw [utf8SubString_flatten each, List.take_of_length_le (by rw [List.length_drop])]
    have eachRest : ∀ piece ∈ pieces.drop consumed, IsCharacter piece :=
      fun piece member => each piece (List.mem_of_mem_drop member)
    have some_' : (pieces.drop consumed).flatten ≠ [] := by
      rw [ne_eq, flatten_eq_nil_iff eachRest, List.drop_eq_nil_iff]
      omega
    have at_ : startIndex + (cut.map List.flatten).length =
        (segments.segments.take startIndex ++ (cut.map List.flatten).map fixedSegment).length := by
      rw [List.length_append, inside, List.length_map fixedSegment]
    rw [if_pos left, rest, at_, ← List.append_assoc, prependRemaining_append some_',
      List.append_assoc]
  · rw [if_neg left, List.drop_eq_nil_of_le (Nat.le_of_not_lt left), List.flatten_nil,
      withRemaining_nil]

/-- The shape of a segment of the given length that a size asked for. -/
theorem map_shape_cutPieces {pieces : List ByteString}
    (each : ∀ piece ∈ pieces, IsCharacter piece) (sizes : List Nat) :
    (((cutPieces pieces sizes).map List.flatten).map fixedSegment).map Segment.shape =
      ((cutPieces pieces sizes).map List.length).map
        fun size => (SegmentType.fixedBoundary, size) := by
  simp only [List.map_map]
  apply List.map_congr_left
  intro part member
  have eachPart : ∀ piece ∈ part, IsCharacter piece := by
    intro piece inside
    have within : piece ∈ (cutPieces pieces sizes).flatten :=
      List.mem_flatten.2 ⟨part, member, inside⟩
    rw [flatten_cutPieces] at within
    exact each piece (List.mem_of_mem_take within)
  exact congrArg _ (charsLen_flatten eachPart)

theorem flatMap_key_fixedSegment (keys : List ByteString) :
    (keys.map fixedSegment).flatMap (·.key) = keys.flatten := by
  rw [List.flatMap_map]
  exact List.flatMap_id

theorem keyLens_of_shapes {segments : List Segment} {sizes : List Nat}
    (shapes : segments.map Segment.shape =
      sizes.map fun size => (SegmentType.fixedBoundary, size)) : keyLens segments = sizes.sum := by
  have lengths := congrArg (List.map Prod.snd) shapes
  rw [List.map_map, List.map_map] at lengths
  exact congrArg List.sum (lengths.trans (List.map_id _))

/-! ## When the segments are cut -/

/-- Keys with enough characters are cut to the sizes. -/
theorem cut_of_enough {segments : List Segment} {total : Nat} {sizes : List Nat}
    (positive : ∀ size ∈ sizes, 0 < size) (some_ : total ≠ 0) (covers : total ≤ sizes.sum)
    (leads : total ≤ keyLens (leading total segments))
    (enough : sizes.sum ≤ keyLens (leading total segments))
    {pieces : List ByteString} (each : ∀ piece ∈ pieces, IsCharacter piece)
    (whole : ∀ s ∈ segments, Whole s.key)
    (isFront : pieces.flatten = (leading total segments).flatMap (·.key))
    (length : pieces.length = keyLens (leading total segments)) :
    Cut sizes segments
      (((cutPieces pieces sizes).map List.flatten).map fixedSegment ++
        withRemaining (pieces.drop (sizes.take (cutPieces pieces sizes).length).sum).flatten
          (segments.drop (leading total segments).length)) := by
  obtain ⟨taken, last, isLeading, short⟩ := leading_eq_append some_ leads
  have lengths := map_length_cutPieces positive (by rw [length]; exact enough)
  have count : (cutPieces pieces sizes).length = sizes.length := by
    rw [← List.length_map List.length, lengths]
  have split : segments = taken ++ last :: segments.drop (leading total segments).length := by
    have parts := List.prefix_iff_eq_append.1 (leading_isPrefix total segments)
    rw [isLeading, List.append_assoc] at parts
    rw [isLeading]
    exact parts.symm
  rw [split, List.forall_mem_append, List.forall_mem_cons] at whole
  -- The characters of the last key come after those of the others.
  obtain ⟨others, eachOther, isOthers, lengthOthers⟩ := exists_pieces whole.1
  obtain ⟨lasts, eachLast, isLast⟩ := whole.2.1
  have eachBoth : ∀ piece ∈ others ++ lasts, IsCharacter piece :=
    List.forall_mem_append.2 ⟨eachOther, eachLast⟩
  have isPieces : pieces.flatten = (others ++ lasts).flatten := by
    rw [isFront, isLeading, List.flatMap_append, List.flatMap_singleton, List.flatten_append,
      isOthers, isLast]
  have consumedIs : (pieces.take sizes.sum).flatten =
      taken.flatMap (·.key) ++ (lasts.take (sizes.sum - others.length)).flatten := by
    rw [← utf8Front_flatten each, isPieces, utf8Front_flatten eachBoth, List.take_append,
      List.take_of_length_le (by omega), List.flatten_append, isOthers]
  have remainingIs : (pieces.drop sizes.sum).flatten =
      (lasts.drop (sizes.sum - others.length)).flatten := by
    rw [← utf8SubStringFrom_flatten each, isPieces, utf8SubStringFrom_flatten eachBoth,
      List.drop_append, List.drop_eq_nil_of_le (by omega), List.nil_append]
  refine ⟨((cutPieces pieces sizes).map List.flatten).map fixedSegment, taken, last,
    segments.drop (leading total segments).length, (lasts.take (sizes.sum - others.length)).flatten,
    (lasts.drop (sizes.sum - others.length)).flatten, split, ?_, ?_, ?_, ?_, ?_⟩
  · rw [← List.flatten_append, List.take_append_drop, isLast]
  · have eachTaken : ∀ piece ∈ lasts.take (sizes.sum - others.length), IsCharacter piece :=
      fun piece member => eachLast piece (List.mem_of_mem_take member)
    have lastLength : lasts ≠ [] := by
      rintro rfl
      rw [isLeading, keyLens_append, keyLens_cons, Segment.keyLen, ← isLast] at leads
      change total ≤ keyLens taken + 0 at leads
      omega
    rw [ne_eq, flatten_eq_nil_iff eachTaken, List.take_eq_nil_iff]
    exact not_or.2 ⟨by omega, lastLength⟩
  · rw [map_shape_cutPieces each, lengths]
  · rw [flatMap_key_fixedSegment, ← List.flatten_flatten, flatten_cutPieces, count,
      List.take_length, consumedIs]
  · rw [count, List.take_length, remainingIs]

/-- Keys with fewer characters are cut to the sizes only if the segments behind them already have
the sizes that are left. -/
theorem cut_iff_of_short {before : List Segment} (behind : List Segment) {sizes : List Nat}
    (positive : ∀ size ∈ sizes, 0 < size) (short : keyLens before < sizes.sum)
    {pieces : List ByteString} (each : ∀ piece ∈ pieces, IsCharacter piece)
    (isFront : pieces.flatten = before.flatMap (·.key))
    (length : pieces.length = keyLens before) :
    Cut sizes (before ++ behind)
        (((cutPieces pieces sizes).map List.flatten).map fixedSegment ++ behind) ↔
      ∃ k < sizes.length, (sizes.take k).sum = keyLens before ∧
        (behind.take (sizes.length - k)).map Segment.shape =
          (sizes.drop k).map fun size => (SegmentType.fixedBoundary, size) := by
  have least := le_sum_cutPieces (by rw [length]; exact short)
  have flattened := flatten_cutPieces pieces sizes
  rw [List.take_of_length_le least] at flattened
  have cutShapes := map_shape_cutPieces each sizes
  have cutLength : keyLens (((cutPieces pieces sizes).map List.flatten).map fixedSegment) =
      keyLens before := by
    rw [keyLens_of_shapes cutShapes, ← List.length_flatten, flattened, length]
  have count : (((cutPieces pieces sizes).map List.flatten).map fixedSegment).length =
      (cutPieces pieces sizes).length := by
    rw [List.length_map, List.length_map]
  constructor
  · rintro ⟨fixed, taken, last, others, consumed, remaining, -, -, -, shapes, -, after⟩
    have most : (cutPieces pieces sizes).length ≤ sizes.length := length_cutPieces_le _ _
    generalize (cutPieces pieces sizes).length = k at count most
    generalize ((cutPieces pieces sizes).map List.flatten).map fixedSegment = new at *
    have fixedLength : fixed.length = sizes.length := by
      rw [← List.length_map Segment.shape, shapes, List.length_map]
    have fixedIs : new ++ behind.take (sizes.length - k) = fixed := by
      have front := congrArg (List.take sizes.length) after
      rwa [List.take_append, count, List.take_of_length_le (count.trans_le most), ← fixedLength,
        List.take_left, fixedLength] at front
    rw [← fixedIs, List.map_append] at shapes
    have newShapes : new.map Segment.shape =
        (sizes.take k).map fun size => (SegmentType.fixedBoundary, size) := by
      have front := congrArg (List.take k) shapes
      rwa [← count, ← List.length_map Segment.shape, List.take_left, List.length_map, count,
        ← List.map_take] at front
    have behindShapes : (behind.take (sizes.length - k)).map Segment.shape =
        (sizes.drop k).map fun size => (SegmentType.fixedBoundary, size) := by
      have rest := congrArg (List.drop k) shapes
      rwa [← count, ← List.length_map Segment.shape, List.drop_left, List.length_map, count,
        ← List.map_drop] at rest
    have uses : (sizes.take k).sum = keyLens before := by
      rw [← keyLens_of_shapes newShapes, cutLength]
    refine ⟨k, lt_of_le_of_ne most ?_, uses, behindShapes⟩
    rintro rfl
    rw [List.take_length] at uses
    omega
  · rintro ⟨k, less, uses, shapes⟩
    have newShapes : (((cutPieces pieces sizes).map List.flatten).map fixedSegment).map
        Segment.shape = (sizes.take k).map fun size => (SegmentType.fixedBoundary, size) := by
      have front : ∀ size ∈ sizes.take k, 0 < size :=
        fun size member => positive size (List.mem_of_mem_take member)
      rw [cutShapes, cutPieces_take positive (uses.trans length.symm),
        map_length_cutPieces front (uses.trans length.symm).le]
    rcases List.eq_nil_or_concat' (behind.take (sizes.length - k)) with none_ | ⟨taken, last, is⟩
    · have none_' := congrArg List.length shapes
      rw [none_, List.map_nil, List.length_map, List.length_drop, List.length_nil] at none_'
      omega
    · have lastShape : last.shape ∈
          (sizes.drop k).map fun size => (SegmentType.fixedBoundary, size) := by
        rw [← shapes, is, List.map_append]
        exact List.mem_append_right _ List.mem_cons_self
      obtain ⟨size, member, isSize⟩ := List.mem_map.1 lastShape
      have some_ : last.key ≠ [] := by
        intro none_
        have isZero : size = 0 := by
          rw [(Prod.mk.inj isSize).2, Segment.keyLen, none_]
          rfl
        exact (positive size (List.mem_of_mem_drop member)).ne' isZero
      have behindIs : taken ++ last :: behind.drop (sizes.length - k) = behind := by
        have parts := List.take_append_drop (sizes.length - k) behind
        rwa [is, List.append_assoc] at parts
      refine ⟨((cutPieces pieces sizes).map List.flatten).map fixedSegment ++
        behind.take (sizes.length - k), before ++ taken, last, behind.drop (sizes.length - k),
        last.key, [], ?_, (List.append_nil _).symm, some_, ?_, ?_, ?_⟩
      · rw [List.append_assoc, behindIs]
      · rw [List.map_append, newShapes, shapes, ← List.map_append, List.take_append_drop]
      · rw [List.flatMap_append, flatMap_key_fixedSegment, ← List.flatten_flatten, flattened,
          isFront, is, List.flatMap_append, List.flatMap_append, List.flatMap_singleton,
          List.append_assoc]
      · rw [withRemaining_nil, List.append_assoc, List.take_append_drop]

/-- What `Resize` does keeps the keys and the segments in front, whether it cuts as requested or
not. -/
theorem resize_iff_cut (some_ : totalSizeOf newSizes ≠ 0)
    (enough : totalSizeOf newSizes ≤ keyLens (front segments startIndex newSizes))
    {pieces : List ByteString} (each : ∀ piece ∈ pieces, IsCharacter piece)
    (isFront : pieces.flatten = (front segments startIndex newSizes).flatMap (·.key))
    (length : pieces.length = keyLens (front segments startIndex newSizes)) :
    ResizeHolds segments startIndex newSizes ↔
      Cut (requested newSizes) (segments.segments.drop startIndex)
        (((cutPieces pieces (requested newSizes)).map List.flatten).map fixedSegment ++
          withRemaining (pieces.drop ((requested newSizes).take
            (cutPieces pieces (requested newSizes)).length).sum).flatten
            (behind segments startIndex newSizes)) := by
  have inside := length_take_of_enough some_ enough
  rw [ResizeHolds, resize_eq_true some_ enough each isFront length, if_pos rfl]
  constructor
  · intro resized
    have cut := resized.cut
    dsimp only at cut
    rwa [List.drop_left' inside] at cut
  · intro cut
    refine ⟨?_, ?_, ?_⟩
    · dsimp only
      rw [List.flatMap_append, List.flatMap_append, flatMap_withRemaining,
        flatMap_key_fixedSegment, ← List.flatten_flatten, flatten_cutPieces,
        ← List.append_assoc (List.flatten _), ← List.flatten_append, List.take_append_drop, isFront,
        ← List.flatMap_append, front_append_behind, ← List.flatMap_append, List.take_append_drop]
    · exact List.take_left' inside
    · dsimp only
      rwa [List.drop_left' inside]

/-- **`Resize` cuts the segments as requested, or leaves everything as it is, exactly if the sum of
the sizes fits its `int`** or makes no difference where it does not. -/
theorem resize_iff (segments : Segments) (startIndex : Nat) (newSizes : List UInt8)
    (whole : ∀ s ∈ segments.segments.drop startIndex, Whole s.key)
    (small : keyLens (segments.segments.drop startIndex) < 2 ^ 63) :
    ResizeHolds segments startIndex newSizes ↔
      SizesFit (segments.segments.drop startIndex) newSizes := by
  have split := front_append_behind segments startIndex newSizes
  by_cases refused : totalSizeOf newSizes = 0 ∨
      keyLens (front segments startIndex newSizes) < totalSizeOf newSizes
  · have holds : ResizeHolds segments startIndex newSizes := by
      rw [ResizeHolds, resize_eq_false refused]
      exact rfl
    refine iff_of_true holds ?_
    rcases refused with zero | short
    · exact .inr (.inl zero)
    · rw [front, leading_of_lt short] at short
      exact .inr (.inr (.inl short))
  obtain ⟨some_, enough⟩ := not_or.1 refused
  rw [Nat.not_lt] at enough
  have wholeFront : ∀ s ∈ front segments startIndex newSizes, Whole s.key := by
    intro s member
    exact whole s ((leading_isPrefix _ _).subset member)
  obtain ⟨pieces, each, isFront, length⟩ := exists_pieces wholeFront
  have most : keyLens (front segments startIndex newSizes) ≤
      keyLens (segments.segments.drop startIndex) := by
    rw [← split, keyLens_append]
    exact Nat.le_add_right _ _
  have covers : totalSizeOf newSizes ≤ (requested newSizes).sum := by
    rw [totalSizeOf_eq] at enough ⊢
    exact asSize_asInt_le (by omega)
  rw [resize_iff_cut some_ enough each isFront length]
  by_cases long : (requested newSizes).sum ≤ keyLens (front segments startIndex newSizes)
  · refine iff_of_true ?_ (.inr (.inr (.inr (.inl long))))
    exact cut_of_enough requested_pos some_ covers enough long each whole isFront length
  · rw [Nat.not_le] at long
    have least := le_sum_cutPieces (by rw [length]; exact long)
    rw [List.drop_eq_nil_of_le least, List.flatten_nil, withRemaining_nil, ← split,
      cut_iff_of_short _ requested_pos long each isFront length, split]
    refine ⟨fun cuts => .inr (.inr (.inr (.inr cuts))), ?_⟩
    rintro (fits | zero | short | fewer | cuts)
    · rw [totalSizeOf_eq, asSize_asInt_of_lt fits] at enough
      omega
    · exact absurd zero some_
    · omega
    · exact absurd long (Nat.not_lt.2 fewer)
    · exact cuts

/-- The first character of `ab` becomes a segment of its own. -/
theorem resize_iff_ab :
    ResizeHolds { segments := [{ key := ascii "ab" }, { key := ascii "c" }] } 0 [1] ↔
      SizesFit [{ key := ascii "ab" }, { key := ascii "c" }] [1] := by
  refine resize_iff _ _ _ ?_ (by decide)
  intro s member
  change s ∈ [{ key := utf8 ['a', 'b'] }, { key := utf8 ['c'] }] at member
  simp only [List.mem_cons, List.not_mem_nil, or_false] at member
  rcases member with rfl | rfl
  · exact whole_utf8 _
  · exact whole_utf8 _

theorem requested_replicate (n : Nat) :
    requested (List.replicate n 255 ++ [2]) = List.replicate n 255 ++ [2] := by
  induction n with
  | zero => rfl
  | succ n ih =>
      rw [List.replicate_succ, List.cons_append, requested_cons, ih, if_pos (by decide)]
      rfl

/-- Sizes whose sum wraps around to one cut a single character although they ask for more. -/
theorem not_resizeHolds_of_wraps (n : Nat) (wraps : asSize (asInt (n * 255 + 2 : Nat)) = 1) :
    ¬ ResizeHolds { segments := [{ key := ascii "a" }] } 0 (List.replicate n 255 ++ [2]) := by
  have sum : (requested (List.replicate n 255 ++ [2])).sum = n * 255 + 2 := by
    rw [requested_replicate, List.sum_append, List.sum_replicate, smul_eq_mul]
    rfl
  have total : totalSizeOf (List.replicate n 255 ++ [2]) = 1 := by
    rw [totalSizeOf_eq, sum, wraps]
  have frontIs : front { segments := [{ key := ascii "a" }] } 0 (List.replicate n 255 ++ [2]) =
      [{ key := ascii "a" }] := by
    rw [front, total]
    rfl
  have whole : ∀ piece ∈ [ascii "a"], IsCharacter piece := by
    intro piece member
    rw [List.mem_singleton.1 member]
    exact isCharacter_utf8EncodeChar 'a'
  rw [resize_iff_cut (by omega) (by rw [total, frontIs]; decide) whole (by rw [frontIs]; rfl)
    (by rw [frontIs]; rfl)]
  have behindIs : behind { segments := [{ key := ascii "a" }] } 0 (List.replicate n 255 ++ [2]) =
      [] := by
    rw [behind, frontIs]
    rfl
  have short : keyLens [{ key := ascii "a" }] < (requested (List.replicate n 255 ++ [2])).sum := by
    rw [sum]
    exact Nat.lt_add_left _ Nat.one_lt_two
  have least := le_sum_cutPieces (show [ascii "a"].length < _ from short)
  have cuts := cut_iff_of_short [] requested_pos short whole rfl rfl
  rw [List.drop_eq_nil_of_le least, List.flatten_nil, withRemaining_nil, behindIs]
  intro cut
  obtain ⟨k, less, -, shapes⟩ := cuts.1 cut
  have lengths := congrArg List.length shapes
  rw [List.take_nil, List.map_nil, List.length_map, List.length_drop, List.length_nil] at lengths
  omega

/-- A segment of one character is not cut to sizes of `2³² + 1` characters. -/
theorem not_resizeHolds :
    ¬ ∀ (segments : Segments) (startIndex : Nat) (newSizes : List UInt8),
      ResizeHolds segments startIndex newSizes := by
  intro holds
  obtain ⟨n, wraps⟩ : ∃ n : Nat, asSize (asInt (n * 255 + 2 : Nat)) = 1 :=
    ⟨16843009, by norm_num [asSize, asInt]⟩
  exact not_resizeHolds_of_wraps n wraps (holds _ _ _)

end Resize

end Mozkey.Converter
