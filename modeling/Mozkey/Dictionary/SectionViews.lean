import Mozkey.Dictionary.FileCodec

/-!
# Reading sections of untrusted images

The reader appends a section as a view of the image: a pointer and a length.  The length comes from
the file as an `int32_t` and becomes a `size_t`, and the pointer is moved by the rounded length.
Here a view is kept as the offset and the length it really has, so that a view that reaches out of
the image, a pointer that moves back and a loop without end can be told.

The main result is `readSections_safe_iff`: reading is safe exactly when no size is negative or overflows when
it is rounded up and still passes the check against the end of the image.
-/

namespace Mozkey.Dictionary

/-- A section as it is appended: a view of the image, and the name. -/
structure SectionView where
  offset : Int
  size : Nat
  name : ByteString
deriving DecidableEq

/-- An `int32_t` as a `size_t`. -/
def toSizeT (value : Int32) : Nat := (value.toInt % 2 ^ 64).toNat

/-- The view lies completely inside of the image. -/
def SectionView.Inside (image : ByteString) (view : SectionView) : Prop :=
  0 ≤ view.offset ∧ view.offset + view.size ≤ image.length

/-- One iteration of the loop of `ReadSections`, with the section as a view. -/
def readView (image : ByteString) (sectionIndex : Nat) (ptr : Int) :
    Except CodecError (Option SectionView × Int) :=
  if image.length - ptr < 4 then .error (.insufficientImage sectionIndex (image.length - ptr))
  else
    match bytesAt image ptr 4 with
    | .error error => .error error
    | .ok size =>
        let dataSize := loadInt32 size
        if dataSize = 0 then .ok (none, ptr + 4)
        else
          let paddedDataSize := (roundUp4 dataSize).toInt
          let sectionEnd := ptr + 4 + 8 + paddedDataSize
          if sectionEnd > image.length then
            .error (.passesEnd sectionIndex sectionEnd image.length)
          else
            match bytesAt image (ptr + 4) 8 with
            | .error error => .error error
            | .ok fingerprint =>
                .ok (some ⟨ptr + 4 + 8, toSizeT dataSize, fingerprint⟩, ptr + 4 + 8 + paddedDataSize)

/-- The loop of `ReadSections`, with at most `fuel` iterations: how it ends, and what is appended. -/
def readViewsFrom (image : ByteString) :
    Nat → Nat → Int → List SectionView → Option (Except CodecError Int × List SectionView)
  | 0, _, _, _ => none
  | fuel + 1, sectionIndex, ptr, sections =>
      match readView image sectionIndex ptr with
      | .error error => some (.error error, sections)
      | .ok (none, ptr) => some (.ok ptr, sections)
      | .ok (some view, ptr) =>
          readViewsFrom image fuel (sectionIndex + 1) ptr (sections ++ [view])

/-- The header of the image is one for `ReadSections` to go on behind it. -/
def HeaderAccepted (filemagic : Int32) (image : ByteString) : Prop :=
  12 ≤ image.length ∧ loadInt32 image = filemagic

instance (filemagic : Int32) (image : ByteString) : Decidable (HeaderAccepted filemagic image) :=
  inferInstanceAs (Decidable (_ ∧ _))

/-- `DictionaryFileCodec::ReadSections` of an aligned image: how it ends, and what is appended. -/
def readSectionViews (fuel : Nat) (filemagic : Int32) (image : ByteString) :
    Option (Except CodecError Unit × List SectionView) :=
  if image.length < 12 then some (.error (.insufficientDataSize image.length), [])
  else if loadInt32 image ≠ filemagic then
    some (.error (.invalidMagic filemagic (loadInt32 image)), [])
  else
    (readViewsFrom image fuel 0 8 []).map fun (result, sections) =>
      match result with
      | .error error => (.error error, sections)
      | .ok ptr =>
          if ptr ≠ image.length then
            (.error (.bytesRemaining (image.length - ptr) image.length), sections)
          else (.ok (), sections)

/-- The states the loop comes to: the number of sections, the read pointer and the sections. -/
inductive Reads (filemagic : Int32) (image : ByteString) : Nat → Int → List SectionView → Prop
  | start : HeaderAccepted filemagic image → Reads filemagic image 0 8 []
  | next {index : Nat} {ptr ptr' : Int} {sections : List SectionView} {view : SectionView} :
      Reads filemagic image index ptr sections →
      readView image index ptr = .ok (some view, ptr') →
        Reads filemagic image (index + 1) ptr' (sections ++ [view])

/-- Reading the image terminates, the pointer stays inside of the image and never moves back, no
byte outside is read, and what is appended when it returns lies inside. -/
structure Safe (filemagic : Int32) (image : ByteString) : Prop where
  terminates : ∃ fuel, (readSectionViews fuel filemagic image).isSome
  pointer : ∀ index ptr sections, Reads filemagic image index ptr sections →
    0 ≤ ptr ∧ ptr ≤ image.length
  forward : ∀ index ptr sections view ptr', Reads filemagic image index ptr sections →
    readView image index ptr = .ok (view, ptr') → ptr ≤ ptr'
  reads : ∀ index ptr sections, Reads filemagic image index ptr sections →
    readView image index ptr ≠ .error .outside
  sections : ∀ fuel result sections, readSectionViews fuel filemagic image = some (result, sections) →
    ∀ view ∈ sections, view.Inside image

/-! ## Walking over well-sized sections -/

/-- The size that stands at an offset. -/
def sizeAt (image : ByteString) (p : Nat) : Int32 := loadInt32 ((image.drop p).take 4)

/-- The offsets that sections of good sizes lead to. -/
inductive Walked (image : ByteString) : Nat → Prop
  | start : Walked image 8
  | next {p : Nat} : Walked image p → p + 4 ≤ image.length → 0 < (sizeAt image p).toInt →
      (sizeAt image p).toInt ≤ 2 ^ 31 - 4 →
      (p : Int) + 12 + (roundUp4 (sizeAt image p)).toInt ≤ image.length →
        Walked image (p + 12 + (roundUp4 (sizeAt image p)).toInt.toNat)

/-- No size that is met is negative or overflows, where it passes the check against the end. -/
def WellSized (image : ByteString) : Prop :=
  ∀ p, Walked image p → p + 4 ≤ image.length →
    (p : Int) + 12 + (roundUp4 (sizeAt image p)).toInt ≤ image.length →
      0 ≤ (sizeAt image p).toInt ∧ (sizeAt image p).toInt ≤ 2 ^ 31 - 4

variable {filemagic : Int32} {image : ByteString} {index p : Nat} {ptr ptr' : Int}
  {sections : List SectionView}

theorem bytesAt_ok {ptr count : Nat} (inside : ptr + count ≤ image.length) :
    bytesAt image ptr count = .ok ((image.drop ptr).take count) := by
  have condition : (0 : Int) ≤ ptr ∧ (0 : Int) ≤ count ∧ (ptr : Int) + count ≤ image.length := by
    omega
  rw [bytesAt, if_pos condition, Int.toNat_natCast, Int.toNat_natCast]

/-- Less than a size is left. -/
theorem readView_short (short : ¬ p + 4 ≤ image.length) :
    readView image index p = .error (.insufficientImage index (image.length - p)) := by
  rw [readView, if_pos (by omega)]

/-- All that a size at an offset leads to. -/
theorem readView_enough (enough : p + 4 ≤ image.length) :
    readView image index p =
      if sizeAt image p = 0 then .ok (none, (p : Int) + 4)
      else if (p : Int) + 12 + (roundUp4 (sizeAt image p)).toInt ≤ image.length then
        if p + 12 ≤ image.length then
          .ok (some ⟨(p : Int) + 12, toSizeT (sizeAt image p), (image.drop (p + 4)).take 8⟩,
            (p : Int) + 12 + (roundUp4 (sizeAt image p)).toInt)
        else .error .outside
      else
        .error (.passesEnd index ((p : Int) + 12 + (roundUp4 (sizeAt image p)).toInt)
          image.length) := by
  have size : bytesAt image p 4 = .ok ((image.drop p).take 4) := bytesAt_ok enough
  have twelve : (p : Int) + 4 + 8 = p + 12 := by omega
  rw [readView, if_neg (by omega), size]
  dsimp only
  change (if sizeAt image p = 0 then _ else if _ + (roundUp4 (sizeAt image p)).toInt > _ then _ else _) = _
  rw [twelve]
  split
  · rfl
  by_cases accepted : (p : Int) + 12 + (roundUp4 (sizeAt image p)).toInt ≤ image.length
  · rw [if_neg (by omega), if_pos accepted]
    by_cases named : p + 12 ≤ image.length
    · have name : bytesAt image ((p : Int) + 4) 8 = .ok ((image.drop (p + 4)).take 8) :=
        bytesAt_ok (show (p + 4) + 8 ≤ image.length by omega)
      rw [if_pos named, name]
      rfl
    · have name : bytesAt image ((p : Int) + 4) 8 = .error .outside := by
        rw [bytesAt, if_neg (by omega)]
      rw [if_neg named, name]
  · rw [if_pos (by omega), if_neg accepted]
    rfl

/-- A size that is not negative stays what it is. -/
theorem toSizeT_of_nonneg {value : Int32} (nonnegative : 0 ≤ value.toInt) :
    (toSizeT value : Int) = value.toInt := by
  have less := Int32.toInt_lt value
  have small : value.toInt % 2 ^ 64 = value.toInt := Int.emod_eq_of_lt nonnegative (by omega)
  rw [toSizeT, small, Int.toNat_of_nonneg nonnegative]

/-- A negative size becomes a length that no object has. -/
theorem toSizeT_of_neg {value : Int32} (negative : value.toInt < 0) :
    (2 : Int) ^ 63 ≤ toSizeT value := by
  have least := Int32.le_toInt value
  have wrapped : value.toInt % 2 ^ 64 = value.toInt + 2 ^ 64 := by
    rw [← Int.add_emod_right, Int.emod_eq_of_lt (by omega) (by omega)]
  rw [toSizeT, wrapped, Int.toNat_of_nonneg (by omega)]
  omega

/-! ## The states of the loop -/

/-- **One iteration** that appends a section: the size was accepted, and everything is as it says. -/
theorem readView_some {view : SectionView} (read : readView image index p = .ok (some view, ptr')) :
    p + 12 ≤ image.length ∧ sizeAt image p ≠ 0 ∧
      (p : Int) + 12 + (roundUp4 (sizeAt image p)).toInt ≤ image.length ∧
      view.offset = (p : Int) + 12 ∧ view.size = toSizeT (sizeAt image p) ∧
      ptr' = (p : Int) + 12 + (roundUp4 (sizeAt image p)).toInt := by
  by_cases enough : p + 4 ≤ image.length
  · rw [readView_enough enough] at read
    split at read
    · cases read
    rename_i nonzero
    split at read
    · rename_i accepted
      split at read
      · rename_i named
        cases read
        exact ⟨named, nonzero, accepted, rfl, rfl, rfl⟩
      · cases read
    · cases read
  · rw [readView_short enough] at read
    cases read

/-- One iteration that finds the end marker. -/
theorem readView_none (read : readView image index p = .ok (none, ptr')) :
    ptr' = (p : Int) + 4 := by
  by_cases enough : p + 4 ≤ image.length
  · rw [readView_enough enough] at read
    split at read
    · cases read
      rfl
    split at read
    · split at read
      · cases read
      · cases read
    · cases read
  · rw [readView_short enough] at read
    cases read

/-- One iteration that reads outside: the size was accepted, but the name is not inside. -/
theorem readView_outside (read : readView image index p = .error .outside) :
    p + 4 ≤ image.length ∧ sizeAt image p ≠ 0 ∧
      (p : Int) + 12 + (roundUp4 (sizeAt image p)).toInt ≤ image.length ∧
      ¬ p + 12 ≤ image.length := by
  by_cases enough : p + 4 ≤ image.length
  · rw [readView_enough enough] at read
    split at read
    · cases read
    rename_i nonzero
    split at read
    · rename_i accepted
      split at read
      · cases read
      · rename_i unnamed
        exact ⟨enough, nonzero, accepted, unnamed⟩
    · cases read
  · rw [readView_short enough] at read
    cases read

theorem toInt_ne_zero {size : Int32} (nonzero : size ≠ 0) : size.toInt ≠ 0 :=
  fun zero => nonzero (Int32.toInt_inj.mp (zero.trans rfl))

/-- The padded size of a positive size that does not overflow. -/
theorem roundUp4_le {size : Int32} (positive : 0 < size.toInt) (fits : size.toInt ≤ 2 ^ 31 - 4) :
    size.toInt ≤ (roundUp4 size).toInt := by
  have back : Int32.ofNat size.toInt.toNat = size := by
    rw [← Int32.toInt_inj, toInt_ofNat (by omega)]
    omega
  have padded := toInt_roundUp4 (show size.toInt.toNat < 2 ^ 31 by omega)
  rw [back, if_pos (by omega)] at padded
  omega

/-- The padded size of a size that overflows. -/
theorem roundUp4_overflow {size : Int32} (overflows : 2 ^ 31 - 4 < size.toInt) :
    (roundUp4 size).toInt = -2 ^ 31 := by
  have less := Int32.toInt_lt size
  have back : Int32.ofNat size.toInt.toNat = size := by
    rw [← Int32.toInt_inj, toInt_ofNat (by omega)]
    omega
  have padded := toInt_roundUp4 (show size.toInt.toNat < 2 ^ 31 by omega)
  rwa [back, if_neg (by omega)] at padded

/-- The loop keeps the sections that it has appended. -/
theorem readViewsFrom_isPrefix : ∀ (fuel index : Nat) (ptr : Int) (sections : List SectionView)
    {result : Except CodecError Int} {final : List SectionView},
    readViewsFrom image fuel index ptr sections = some (result, final) → sections <+: final
  | 0, _, _, _, _, _, run => by cases run
  | fuel + 1, index, ptr, sections, result, final, run => by
      rw [readViewsFrom] at run
      split at run
      · cases run
        exact List.prefix_refl _
      · cases run
        exact List.prefix_refl _
      · exact (List.prefix_append _ _).trans (readViewsFrom_isPrefix fuel _ _ _ run)

/-- The loop ends in a state that it comes to. -/
theorem readViewsFrom_reads : ∀ (fuel index : Nat) (ptr : Int) (sections : List SectionView)
    {result : Except CodecError Int} {final : List SectionView},
    Reads filemagic image index ptr sections →
    readViewsFrom image fuel index ptr sections = some (result, final) →
      ∃ index ptr, Reads filemagic image index ptr final
  | 0, _, _, _, _, _, _, run => by cases run
  | fuel + 1, index, ptr, sections, result, final, here, run => by
      rw [readViewsFrom] at run
      split at run
      · cases run
        exact ⟨index, ptr, here⟩
      · cases run
        exact ⟨index, ptr, here⟩
      · rename_i read
        exact readViewsFrom_reads fuel _ _ _ (here.next read) run

/-- A loop without end comes to every number of sections. -/
theorem reads_of_readViewsFrom_none : ∀ (fuel index : Nat) (ptr : Int) (sections : List SectionView),
    Reads filemagic image index ptr sections →
    readViewsFrom image fuel index ptr sections = none →
      ∃ ptr sections, Reads filemagic image (index + fuel) ptr sections
  | 0, _, ptr, sections, here, _ => ⟨ptr, sections, here⟩
  | fuel + 1, index, ptr, sections, here, run => by
      rw [readViewsFrom] at run
      split at run
      · cases run
      · cases run
      · rename_i read
        have there := reads_of_readViewsFrom_none fuel _ _ _ (here.next read) run
        rwa [Nat.add_right_comm, Nat.add_assoc] at there

/-- What the loop returns is what it returns from every state that it comes to. -/
theorem readViewsFrom_of_reads {fuel : Nat} {result : Except CodecError Int}
    {final : List SectionView} (run : readViewsFrom image fuel 0 8 [] = some (result, final))
    (here : Reads filemagic image index ptr sections) :
    ∃ fuel, readViewsFrom image fuel index ptr sections = some (result, final) := by
  induction here with
  | start _ => exact ⟨fuel, run⟩
  | next _ read ih =>
      obtain ⟨fuel, rest⟩ := ih
      match fuel, rest with
      | fuel + 1, rest =>
          rw [readViewsFrom, read] at rest
          exact ⟨fuel, rest⟩

/-- Behind an accepted header, `ReadSections` returns what its loop appends. -/
theorem readSectionViews_accepted (accepted : HeaderAccepted filemagic image) (fuel : Nat) :
    (readSectionViews fuel filemagic image).map Prod.snd =
      (readViewsFrom image fuel 0 8 []).map Prod.snd := by
  rw [readSectionViews, if_neg (Nat.not_lt.mpr accepted.1), if_neg (not_not_intro accepted.2)]
  cases readViewsFrom image fuel 0 8 [] with
  | none => rfl
  | some returned =>
      obtain ⟨result, final⟩ := returned
      cases result with
      | error error => rfl
      | ok ptr =>
          dsimp only [Option.map_some]
          split
          · rfl
          · rfl

/-- Without an accepted header, nothing is appended. -/
theorem readSectionViews_rejected (rejected : ¬ HeaderAccepted filemagic image) (fuel : Nat) :
    ∃ error, readSectionViews fuel filemagic image = some (.error error, []) := by
  rw [readSectionViews]
  split
  · exact ⟨_, rfl⟩
  · rename_i long
    split
    · exact ⟨_, rfl⟩
    · rename_i magic
      exact absurd ⟨Nat.not_lt.mp long, not_not.mp magic⟩ rejected

theorem Reads.accepted (here : Reads filemagic image index ptr sections) :
    HeaderAccepted filemagic image := by
  induction here with
  | start accepted => exact accepted
  | next _ _ ih => exact ih

/-! ## Well-sized images are safe -/

/-- **What holds in every state** of the loop on a well-sized image. -/
theorem Reads.walked (well : WellSized image) (here : Reads filemagic image index ptr sections) :
    ∃ p : Nat, ptr = p ∧ Walked image p ∧ 8 + 12 * index ≤ p ∧ p ≤ image.length ∧
      ∀ view ∈ sections, view.Inside image := by
  induction here with
  | start accepted =>
      refine ⟨8, rfl, .start, by omega, ?_, fun _ member => by cases member⟩
      have long := accepted.1
      omega
  | @next index ptr ptr' sections view _ read ih =>
      obtain ⟨p, rfl, walked, counted, _, inside⟩ := ih
      obtain ⟨named, nonzero, accepted, offset, size, moved⟩ := readView_some read
      obtain ⟨nonnegative, fits⟩ := well p walked (by omega) accepted
      have positive := nonnegative.lt_of_ne' (toInt_ne_zero nonzero)
      have padded := roundUp4_le positive fits
      refine ⟨_, ?_, walked.next (by omega) positive fits accepted, by omega, by omega, ?_⟩
      · rw [moved]
        omega
      · intro other member
        rcases List.mem_append.mp member with old | new
        · exact inside other old
        · rw [List.mem_singleton.mp new]
          refine ⟨by omega, ?_⟩
          rw [offset, size, toSizeT_of_nonneg nonnegative]
          omega

theorem safe_of_wellSized (well : HeaderAccepted filemagic image → WellSized image) :
    Safe filemagic image where
  terminates := by
    by_cases accepted : HeaderAccepted filemagic image
    · refine ⟨image.length + 1, ?_⟩
      have same := readSectionViews_accepted accepted (image.length + 1)
      rw [← Option.isSome_map, same, Option.isSome_map, Option.isSome_iff_ne_none]
      intro endless
      obtain ⟨ptr, sections, there⟩ := reads_of_readViewsFrom_none _ _ _ _ (.start accepted) endless
      obtain ⟨p, _, _, counted, inside, _⟩ := there.walked (well accepted)
      omega
    · obtain ⟨error, returned⟩ := readSectionViews_rejected accepted 0
      exact ⟨0, by rw [returned]; rfl⟩
  pointer index ptr sections here := by
    obtain ⟨p, rfl, _, _, inside, _⟩ := here.walked (well here.accepted)
    omega
  forward index ptr sections view ptr' here read := by
    obtain ⟨p, rfl, walked, _, _, _⟩ := here.walked (well here.accepted)
    cases view with
    | none =>
        have moved := readView_none read
        omega
    | some view =>
        obtain ⟨named, nonzero, accepted, _, _, moved⟩ := readView_some read
        obtain ⟨nonnegative, fits⟩ := well here.accepted p walked (by omega) accepted
        have padded := roundUp4_le (nonnegative.lt_of_ne' (toInt_ne_zero nonzero)) fits
        omega
  reads index ptr sections here outside := by
    obtain ⟨p, rfl, walked, _, _, _⟩ := here.walked (well here.accepted)
    obtain ⟨enough, nonzero, accepted, unnamed⟩ := readView_outside outside
    obtain ⟨nonnegative, fits⟩ := well here.accepted p walked enough accepted
    have padded := roundUp4_le (nonnegative.lt_of_ne' (toInt_ne_zero nonzero)) fits
    omega
  sections fuel result sections returned := by
    by_cases accepted : HeaderAccepted filemagic image
    · have same := readSectionViews_accepted accepted fuel
      rw [returned] at same
      cases loop : readViewsFrom image fuel 0 8 [] with
      | none =>
          rw [loop] at same
          cases same
      | some out =>
          obtain ⟨loopResult, final⟩ := out
          rw [loop] at same
          cases same
          obtain ⟨index, ptr, there⟩ := readViewsFrom_reads fuel 0 8 [] (.start accepted) loop
          obtain ⟨_, _, _, _, _, inside⟩ := there.walked (well accepted)
          exact inside
    · obtain ⟨error, rejected⟩ := readSectionViews_rejected accepted fuel
      rw [rejected] at returned
      cases returned
      exact fun _ member => by cases member

/-! ## Safe images are well-sized -/

theorem Walked.reads (accepted : HeaderAccepted filemagic image) (walked : Walked image p) :
    ∃ index sections, Reads filemagic image index p sections := by
  induction walked with
  | start => exact ⟨0, [], .start accepted⟩
  | @next p _ enough positive fits inside ih =>
      obtain ⟨index, sections, here⟩ := ih
      have padded := roundUp4_le positive fits
      have read := @readView_enough _ index _ enough
      have nonzero : sizeAt image p ≠ 0 := by
        intro zero
        rw [zero] at positive
        exact absurd positive (by decide)
      rw [if_neg nonzero, if_pos inside, if_pos (by omega)] at read
      have there := here.next read
      have moved : ((p + 12 + (roundUp4 (sizeAt image p)).toInt.toNat : Nat) : Int) =
          (p : Int) + 12 + (roundUp4 (sizeAt image p)).toInt := by omega
      rw [moved]
      exact ⟨_, _, there⟩

/-- Everything that a state has appended is inside, when reading is safe. -/
theorem Safe.inside (safe : Safe filemagic image) (here : Reads filemagic image index ptr sections)
    {view : SectionView} (member : view ∈ sections) : view.Inside image := by
  obtain ⟨fuel, terminates⟩ := safe.terminates
  obtain ⟨⟨result, final⟩, returned⟩ := Option.isSome_iff_exists.mp terminates
  have same := readSectionViews_accepted here.accepted fuel
  rw [returned] at same
  cases loop : readViewsFrom image fuel 0 8 [] with
  | none =>
      rw [loop] at same
      cases same
  | some out =>
      obtain ⟨loopResult, appended⟩ := out
      rw [loop] at same
      cases same
      obtain ⟨rest, run⟩ := readViewsFrom_of_reads loop here
      have kept := readViewsFrom_isPrefix rest _ _ _ run
      exact safe.sections fuel result final returned view (kept.subset member)

theorem Safe.wellSized (addressable : image.length < 2 ^ 63) (safe : Safe filemagic image)
    (accepted : HeaderAccepted filemagic image) : WellSized image := by
  intro p walked enough inside
  obtain ⟨index, sections, here⟩ := walked.reads accepted
  have read := @readView_enough _ index _ enough
  by_cases zero : sizeAt image p = 0
  · rw [zero]
    decide
  rw [if_neg zero, if_pos inside] at read
  by_cases named : p + 12 ≤ image.length
  · rw [if_pos named] at read
    constructor
    · have view := safe.inside (here.next read) (List.mem_append_right _ (List.mem_singleton_self _))
      have reaches : (p : Int) + 12 + toSizeT (sizeAt image p) ≤ image.length := view.2
      by_contra negative
      have large := toSizeT_of_neg (Int.not_le.mp negative)
      omega
    · by_contra overflows
      have padded := roundUp4_overflow (Int.not_le.mp overflows)
      have forward := safe.forward _ _ _ _ _ here read
      omega
  · rw [if_neg named] at read
    exact absurd read (safe.reads _ _ _ here)

/-- **Reading is safe exactly** when no size that is met behind an accepted header is negative or
overflows in rounding, and passes the check against the end of the image. -/
theorem readSections_safe_iff (addressable : image.length < 2 ^ 63) :
    Safe filemagic image ↔ (HeaderAccepted filemagic image → WellSized image) :=
  ⟨fun safe => safe.wellSized addressable, safe_of_wellSized⟩

/-- An image with a section of five bytes and three bytes of padding, and one of four bytes. -/
def twoSections : ByteString :=
  [1, 0, 0, 0, 0, 0, 0, 0, 5, 0, 0, 0] ++ List.replicate 8 7 ++ [1, 2, 3, 4, 5, 0, 0, 0] ++
    [4, 0, 0, 0] ++ List.replicate 8 9 ++ [1, 2, 3, 4] ++ [0, 0, 0, 0]

/-- The two sections are read safely. -/
theorem readSections_safe_twoSections : Safe 1 twoSections := by
  refine (readSections_safe_iff (by decide)).mpr fun _ p walked _ _ => ?_
  have places : ∀ {p : Nat}, Walked twoSections p → p = 8 ∨ p = 28 ∨ p = 44 := by
    intro p walked
    induction walked with
    | start => exact .inl rfl
    | next _ _ positive _ _ ih =>
        rcases ih with rfl | rfl | rfl
        · exact .inr (.inl (by decide))
        · exact .inr (.inr (by decide))
        · exact absurd positive (by decide)
  rcases places walked with rfl | rfl | rfl <;> decide

/-- An image whose only section has the size -12. -/
def backwardImage : ByteString :=
  [1, 0, 0, 0, 0, 0, 0, 0, 0xf4, 0xff, 0xff, 0xff, 0, 0, 0, 0, 0, 0, 0, 0]

/-- The pointer comes back to the section of the size -12, forever. -/
theorem not_safe_backwardImage : ¬ Safe 1 backwardImage := by
  intro safe
  have well := safe.wellSized (by decide) (by decide) 8 .start (by decide) (by decide)
  exact absurd well.1 (by decide)

end Mozkey.Dictionary
