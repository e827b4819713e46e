import Mathlib

/-!
# Restoring the style of symbols

A symbol has variants, such as an ASCII and a full-width one.  What the user has chosen is restored
in a value that was generated: where the source has another variant at the same place, and, if the
source uses one variant only, anywhere.  How many symbols are replaced is limited by how many of the
source are missing.

Texts are valid UTF-8, and they are the lists of their characters here.  The variants of a group are
different, so that numbers of variants are given by the variants themselves.
-/

namespace Mozkey.Session.ZenzOutputValidator

/-- A text in UTF-8, as its characters. -/
abbrev Text := List Char

/-- The arguments of one of the restorations. -/
structure SymbolGroup where
  variants : List Char
  avoidAsciiTokenFallbackWhenWidening : Bool
  deriving DecidableEq

/-- The groups, in the order in which they are restored. -/
def symbolGroups : List SymbolGroup :=
  [⟨['~', '～', '〜'], false⟩, ⟨['(', '（'], true⟩, ⟨[')', '）'], true⟩, ⟨['[', '［'], true⟩,
    ⟨[']', '］'], true⟩, ⟨['{', '｛'], true⟩, ⟨['}', '｝'], true⟩, ⟨['!', '！'], false⟩,
    ⟨['?', '？'], false⟩, ⟨[':', '：'], true⟩, ⟨[';', '；'], true⟩, ⟨[',', '，'], true⟩,
    ⟨['.', '．'], true⟩]

def isAsciiTokenCharForSymbolRestore (c : Char) : Bool :=
  c.toNat ≤ 0x7F &&
    (('0' ≤ c && c ≤ '9') || ('A' ≤ c && c ≤ 'Z') || ('a' ≤ c && c ≤ 'z') ||
      ['_', '-', '.', '+', '#', '/', '\\'].contains c)

def hasAsciiTokenNeighborForSymbolRestore (chars : Text) (index : Nat) : Bool :=
  (0 < index && (chars[index - 1]?).any isAsciiTokenCharForSymbolRestore) ||
    (chars[index + 1]?).any isAsciiTokenCharForSymbolRestore

def containsAnySymbolStyleVariant (text : Text) (variants : List Char) : Bool :=
  text.any variants.contains

/-! ## One group -/

/-- What the loop of `RestoreSymbolGroupStyle` counts: the symbols that are missing and those that
are too many. -/
structure Budgets where
  missing : Char → Nat
  excess : Char → Nat

namespace Budgets

/-- The counts for a source and a value. -/
def of (source zenz : Text) : Budgets where
  missing v := source.count v - zenz.count v
  excess v := zenz.count v - source.count v

/-- A symbol was replaced. -/
def spend (b : Budgets) (current target : Char) : Budgets where
  missing := Function.update b.missing target (b.missing target - 1)
  excess := Function.update b.excess current (b.excess current - 1)

end Budgets

section
variable (source zenz : Text) (group : SymbolGroup)

/-- `active_source_variant_count`. -/
def activeSourceVariantCount : Nat := (group.variants.filter fun v => 0 < source.count v).length

/-- The symbol of the source at the same place. -/
def positionalTarget (b : Budgets) (i : Nat) (c : Char) : Option Char :=
  (source[i]?).filter fun s =>
    group.variants.contains c && group.variants.contains s && s != c && 0 < b.missing s

/-- A symbol that is missing, for one that is too many. -/
def fallbackTarget (b : Budgets) (i : Nat) (c : Char) : Option Char :=
  if group.variants.contains c ∧ 0 < b.excess c ∧ activeSourceVariantCount source group = 1 then
    group.variants.find? fun v =>
      0 < b.missing v &&
        !(group.avoidAsciiTokenFallbackWhenWidening && c.toNat ≤ 0x7F && 0x7F < v.toNat &&
          hasAsciiTokenNeighborForSymbolRestore zenz i)
  else none

/-- What a character is replaced by, if it is. -/
def target (b : Budgets) (i : Nat) (c : Char) : Option Char :=
  (positionalTarget source group b i c).or (fallbackTarget source zenz group b i c)

/-- The loop of `RestoreSymbolGroupStyle`, from a position on. -/
def restoreFrom : Budgets → Nat → Text → Text
  | _, _, [] => []
  | b, i, c :: rest =>
      match target source zenz group b i c with
      | none => c :: restoreFrom b (i + 1) rest
      | some v => v :: restoreFrom (b.spend c v) (i + 1) rest

/-- `RestoreSymbolGroupStyle`. -/
def restoreSymbolGroupStyle : Text :=
  if source.isEmpty || zenz.isEmpty || group.variants.isEmpty then zenz
  else if activeSourceVariantCount source group = 0 then zenz
  else if group.variants.all fun v => (Budgets.of source zenz).missing v = 0 then zenz
  else restoreFrom source zenz group (.of source zenz) 0 zenz

end

/-- The text whose style is restored, if it has symbols of the group. -/
def styleSource (key mozcValue : Text) (group : SymbolGroup) : Option Text :=
  if containsAnySymbolStyleVariant key group.variants then some key
  else if containsAnySymbolStyleVariant mozcValue group.variants then some mozcValue
  else none

/-- `RestoreSymbolGroupStyleFromKeyOrMozc`. -/
def restoreSymbolGroupStyleFromKeyOrMozc (key mozcValue zenz : Text) (group : SymbolGroup) : Text :=
  match styleSource key mozcValue group with
  | none => zenz
  | some source => restoreSymbolGroupStyle source zenz group

/-- `ZenzOutputValidator::RestoreUserVisibleSymbolStyle`. -/
def restoreUserVisibleSymbolStyle (key mozcValue zenz : Text) : Text :=
  symbolGroups.foldl (restoreSymbolGroupStyleFromKeyOrMozc key mozcValue) zenz

/-! ## What is replaced -/

/-- A symbol that stays: it is the only variant of the source, or the source has it at the same
place. -/
def Settled (source : Text) (group : SymbolGroup) (i : Nat) (c : Char) : Prop :=
  (∀ v ∈ group.variants, v ∈ source → v = c) ∨ source[i]? = some c

/-- A symbol that does not stay is replaced by another variant that stays. -/
structure Replaced (source : Text) (group : SymbolGroup) (i : Nat) (c c' : Char) : Prop where
  variant : c ∈ group.variants
  variant' : c' ∈ group.variants
  ne : c' ≠ c
  inSource : c' ∈ source
  settled : Settled source group i c'
  unsettled : ¬ Settled source group i c

/-- The budgets are within the counts for a source and a value. -/
structure Budgets.Within (b : Budgets) (source zenz : Text) : Prop where
  missing : ∀ v, b.missing v ≤ source.count v - zenz.count v
  excess : ∀ v, b.excess v ≤ zenz.count v - source.count v

section
variable {source zenz : Text} {group : SymbolGroup} {b : Budgets} {i : Nat} {c v : Char}

theorem Budgets.Within.of (source zenz : Text) : (Budgets.of source zenz).Within source zenz :=
  ⟨fun _ => le_rfl, fun _ => le_rfl⟩

theorem Budgets.Within.spend (within : b.Within source zenz) (current target : Char) :
    (b.spend current target).Within source zenz := by
  constructor
  · intro v
    unfold Budgets.spend
    dsimp only
    rw [Function.update_apply]
    split_ifs with same
    · rw [same]
      exact (Nat.sub_le _ _).trans (within.missing target)
    · exact within.missing v
  · intro v
    unfold Budgets.spend
    dsimp only
    rw [Function.update_apply]
    split_ifs with same
    · rw [same]
      exact (Nat.sub_le _ _).trans (within.excess current)
    · exact within.excess v

/-- A symbol with a missing one is in the source, and it is not too frequent. -/
theorem Budgets.Within.of_missing (within : b.Within source zenz) (some : 0 < b.missing v) :
    zenz.count v < source.count v :=
  Nat.sub_pos_iff_lt.1 (some.trans_le (within.missing v))

theorem replaced_of_positionalTarget (found : positionalTarget source group b i c = some v) :
    Replaced source group i c v := by
  obtain ⟨atPlace, check⟩ := Option.filter_eq_some_iff.1 found
  simp only [Bool.and_eq_true, List.contains_iff_mem, bne_iff_ne, decide_eq_true_iff] at check
  obtain ⟨⟨⟨variant, variant'⟩, ne⟩, -⟩ := check
  have inSource := List.mem_of_getElem? atPlace
  refine ⟨variant, variant', ne, inSource, .inr atPlace, ?_⟩
  rintro (only | atPlace')
  · exact ne (only v variant' inSource)
  · exact ne (Option.some.inj (atPlace.symm.trans atPlace'))

/-- A source with one active variant has no other one. -/
theorem eq_of_active_eq_one (one : activeSourceVariantCount source group = 1) {a a' : Char}
    (variant : a ∈ group.variants) (inSource : a ∈ source) (variant' : a' ∈ group.variants)
    (inSource' : a' ∈ source) : a = a' := by
  obtain ⟨only, isOnly⟩ := List.length_eq_one_iff.1 one
  have among {x : Char} (variant : x ∈ group.variants) (inSource : x ∈ source) : x = only := by
    have member : x ∈ group.variants.filter fun v => 0 < source.count v :=
      List.mem_filter.2 ⟨variant, decide_eq_true (List.count_pos_iff.2 inSource)⟩
    rw [isOnly] at member
    exact List.mem_singleton.1 member
  rw [among variant inSource, among variant' inSource']

theorem replaced_of_fallbackTarget (within : b.Within source zenz)
    (found : fallbackTarget source zenz group b i c = some v) : Replaced source group i c v := by
  unfold fallbackTarget at found
  split_ifs at found with free
  obtain ⟨variant, tooMany, one⟩ := free
  have variant' := List.mem_of_find?_eq_some found
  have check := List.find?_some found
  rw [Bool.and_eq_true, decide_eq_true_iff] at check
  have fewer := within.of_missing check.1
  have more : source.count c < zenz.count c :=
    Nat.sub_pos_iff_lt.1 (tooMany.trans_le (within.excess c))
  have inSource : v ∈ source := List.count_pos_iff.1 (Nat.zero_lt_of_lt fewer)
  have isVariant : c ∈ group.variants := List.contains_iff_mem.1 variant
  have ne : v ≠ c := by
    rintro rfl
    exact absurd fewer (Nat.not_lt.2 (Nat.le_of_lt more))
  refine ⟨isVariant, variant', ne, inSource, .inl fun a isA inA => ?_, ?_⟩
  · exact eq_of_active_eq_one one isA inA variant' inSource
  · rintro (only | atPlace)
    · exact ne (only v variant' inSource)
    · exact ne (eq_of_active_eq_one one variant' inSource isVariant (List.mem_of_getElem? atPlace))

theorem replaced_of_target (within : b.Within source zenz)
    (found : target source zenz group b i c = some v) : Replaced source group i c v := by
  rcases Option.or_eq_some_iff.1 found with positional | ⟨-, fallback⟩
  · exact replaced_of_positionalTarget positional
  · exact replaced_of_fallbackTarget within fallback

end

/-- Two texts differ only where symbols are replaced. -/
structure DiffersBy (replaced : Nat → Char → Char → Prop) (zenz result : Text) : Prop where
  length_eq : result.length = zenz.length
  chars : ∀ i c c', zenz[i]? = some c → result[i]? = some c' → c' = c ∨ replaced i c c'

theorem DiffersBy.refl (replaced : Nat → Char → Char → Prop) (zenz : Text) :
    DiffersBy replaced zenz zenz :=
  ⟨rfl, fun _ _ _ at_ at_' => .inl (Option.some.inj (at_'.symm.trans at_))⟩

theorem DiffersBy.cons {replaced : Nat → Char → Char → Prop} {zenz result : Text} {c c' : Char}
    (head : c' = c ∨ replaced 0 c c')
    (tail : DiffersBy (fun i => replaced (i + 1)) zenz result) :
    DiffersBy replaced (c :: zenz) (c' :: result) := by
  refine ⟨congrArg (· + 1) tail.length_eq, fun i d d' at_ at_' => ?_⟩
  cases i with
  | zero =>
      obtain rfl := Option.some.inj at_
      obtain rfl := Option.some.inj at_'
      exact head
  | succ i => exact tail.chars i d d' at_ at_'

theorem DiffersBy.trans {replaced : Nat → Char → Char → Prop} {first second third : Text}
    (compose : ∀ i c c' c'', replaced i c c' → replaced i c' c'' → replaced i c c'')
    (differs : DiffersBy replaced first second) (differs' : DiffersBy replaced second third) :
    DiffersBy replaced first third := by
  refine ⟨differs'.length_eq.trans differs.length_eq, fun i c c'' at_ at_'' => ?_⟩
  obtain ⟨inside, -⟩ := List.getElem?_eq_some_iff.1 at_
  obtain ⟨c', at_'⟩ : ∃ c', second[i]? = some c' :=
    ⟨_, List.getElem?_eq_getElem (differs.length_eq ▸ inside)⟩
  rcases differs.chars i c c' at_ at_' with rfl | changed
  · exact differs'.chars i c' c'' at_' at_''
  · rcases differs'.chars i c' c'' at_' at_'' with rfl | changed'
    · exact .inr changed
    · exact .inr (compose i c c' c'' changed changed')

/-- What every restoration keeps, all of them keep. -/
theorem DiffersBy.foldl {replaced : Nat → Char → Char → Prop}
    {restore : Text → SymbolGroup → Text} {groups : List SymbolGroup}
    (compose : ∀ i c c' c'', replaced i c c' → replaced i c' c'' → replaced i c c'')
    (each : ∀ group ∈ groups, ∀ zenz, DiffersBy replaced zenz (restore zenz group)) (zenz : Text) :
    DiffersBy replaced zenz (groups.foldl restore zenz) := by
  induction groups generalizing zenz with
  | nil => exact .refl _ zenz
  | cons group groups ih =>
      obtain ⟨first, others⟩ := List.forall_mem_cons.1 each
      exact .trans compose (first zenz) (ih others (restore zenz group))

theorem differsBy_restoreFrom {source zenz : Text} {group : SymbolGroup} {b : Budgets}
    (within : b.Within source zenz) (i : Nat) (rest : Text) :
    DiffersBy (fun j => Replaced source group (i + j)) rest
      (restoreFrom source zenz group b i rest) := by
  induction rest generalizing b i with
  | nil => exact .refl _ _
  | cons c rest ih =>
      have shift (b : Budgets) (within : b.Within source zenz) :
          DiffersBy (fun j => Replaced source group (i + (j + 1))) rest
            (restoreFrom source zenz group b (i + 1) rest) := by
        have tail := ih within (i + 1)
        simp only [Nat.add_assoc, Nat.add_comm 1] at tail
        exact tail
      rw [restoreFrom]
      split
      · exact .cons (.inl rfl) (shift b within)
      · rename_i v found
        exact .cons (.inr (replaced_of_target within found)) (shift _ (within.spend c v))

theorem differsBy_restoreSymbolGroupStyle (source zenz : Text) (group : SymbolGroup) :
    DiffersBy (Replaced source group) zenz (restoreSymbolGroupStyle source zenz group) := by
  unfold restoreSymbolGroupStyle
  split_ifs
  · exact .refl _ _
  · exact .refl _ _
  · exact .refl _ _
  · have differs : DiffersBy (fun j => Replaced source group (0 + j)) zenz
        (restoreFrom source zenz group (.of source zenz) 0 zenz) :=
      differsBy_restoreFrom (.of source zenz) 0 zenz
    simp only [Nat.zero_add] at differs
    exact differs

/-! ## All groups -/

/-- **The groups have no characters in common.** -/
theorem eq_of_mem_variants : ∀ group ∈ symbolGroups, ∀ group' ∈ symbolGroups,
    ∀ c ∈ group.variants, c ∈ group'.variants → group = group' := by
  have distinct : (symbolGroups.flatMap SymbolGroup.variants).Nodup := by decide
  intro group isGroup group' isGroup' c variant variant'
  by_contra ne
  have symm : Std.Symm (Function.onFun List.Disjoint SymbolGroup.variants) :=
    ⟨fun _ _ disjoint => disjoint.symm⟩
  have disjoint := (List.nodup_flatMap.1 distinct).2.forall isGroup isGroup' ne
  exact disjoint variant variant'

/-- A symbol of one of the groups is replaced by another variant of its group. -/
def Restored (key mozcValue : Text) (i : Nat) (c c' : Char) : Prop :=
  ∃ group ∈ symbolGroups, ∃ source, styleSource key mozcValue group = some source ∧
    Replaced source group i c c'

/-- A symbol that may still be replaced. -/
def Unsettled (key mozcValue : Text) (i : Nat) (c : Char) : Prop :=
  ∃ group ∈ symbolGroups, ∃ source, styleSource key mozcValue group = some source ∧
    c ∈ group.variants ∧ ¬ Settled source group i c

variable {key mozcValue : Text} {i : Nat} {c c' : Char}

theorem Restored.unsettled (restored : Restored key mozcValue i c c') :
    Unsettled key mozcValue i c := by
  obtain ⟨group, isGroup, source, isSource, replaced⟩ := restored
  exact ⟨group, isGroup, source, isSource, replaced.variant, replaced.unsettled⟩

/-- What a symbol was replaced by stays. -/
theorem Restored.settled (restored : Restored key mozcValue i c c') :
    ¬ Unsettled key mozcValue i c' := by
  obtain ⟨group, isGroup, source, isSource, replaced⟩ := restored
  rintro ⟨group', isGroup', source', isSource', variant, unsettled⟩
  obtain rfl := eq_of_mem_variants group isGroup group' isGroup' c' replaced.variant' variant
  obtain rfl := Option.some.inj (isSource.symm.trans isSource')
  exact unsettled replaced.settled

theorem differsBy_group {group : SymbolGroup} (isGroup : group ∈ symbolGroups)
    (key mozcValue zenz : Text) :
    DiffersBy (Restored key mozcValue) zenz
      (restoreSymbolGroupStyleFromKeyOrMozc key mozcValue zenz group) := by
  unfold restoreSymbolGroupStyleFromKeyOrMozc
  split
  · exact .refl _ _
  · rename_i source isSource
    obtain ⟨length, chars⟩ := differsBy_restoreSymbolGroupStyle source zenz group
    refine ⟨length, fun i c c' at_ at_' => (chars i c c' at_ at_').imp id fun replaced => ?_⟩
    exact ⟨group, isGroup, source, isSource, replaced⟩

/-- **The value differs only at symbols**, and each of them is another variant of its group, which
the source has. -/
theorem differsBy_restoreUserVisibleSymbolStyle (key mozcValue zenz : Text) :
    DiffersBy (Restored key mozcValue) zenz (restoreUserVisibleSymbolStyle key mozcValue zenz) := by
  refine .foldl (fun i c c' c'' restored restored' => ?_) (fun group isGroup zenz => ?_) zenz
  · exact absurd restored'.unsettled restored.settled
  · exact differsBy_group isGroup key mozcValue zenz

/-! ## Settling -/

open scoped Classical in
/-- Where symbols may still be replaced. -/
noncomputable def unsettled (key mozcValue zenz : Text) : Finset Nat :=
  (Finset.range zenz.length).filter fun i => ∃ c, zenz[i]? = some c ∧ Unsettled key mozcValue i c

open scoped Classical in
theorem mem_unsettled {zenz : Text} :
    i ∈ unsettled key mozcValue zenz ↔ ∃ c, zenz[i]? = some c ∧ Unsettled key mozcValue i c := by
  refine Finset.mem_filter.trans ?_
  rw [Finset.mem_range, and_iff_right_iff_imp]
  rintro ⟨c, at_, -⟩
  exact (List.getElem?_eq_some_iff.1 at_).1

/-- A restoration that changes something settles a symbol, and unsettles none. -/
theorem unsettled_ssubset {zenz result : Text}
    (differs : DiffersBy (Restored key mozcValue) zenz result) (changed : result ≠ zenz) :
    unsettled key mozcValue result ⊂ unsettled key mozcValue zenz := by
  have charAt {i : Nat} {c' : Char} (at_' : result[i]? = some c') : ∃ c, zenz[i]? = some c := by
    obtain ⟨inside, -⟩ := List.getElem?_eq_some_iff.1 at_'
    exact ⟨_, List.getElem?_eq_getElem (differs.length_eq ▸ inside)⟩
  have subset : unsettled key mozcValue result ⊆ unsettled key mozcValue zenz := by
    intro i member
    obtain ⟨c', at_', isUnsettled⟩ := mem_unsettled.1 member
    obtain ⟨c, at_⟩ := charAt at_'
    rcases differs.chars i c c' at_ at_' with rfl | restored
    · exact mem_unsettled.2 ⟨c', at_, isUnsettled⟩
    · exact absurd isUnsettled restored.settled
  refine (Finset.ssubset_iff_of_subset subset).2 ?_
  by_contra all
  push Not at all
  refine changed (List.ext_getElem? fun i => ?_)
  cases at_' : result[i]? with
  | none =>
      have outside := List.getElem?_eq_none_iff.1 at_'
      exact (List.getElem?_eq_none_iff.2 (differs.length_eq ▸ outside)).symm
  | some c' =>
      obtain ⟨c, at_⟩ := charAt at_'
      rcases differs.chars i c c' at_ at_' with rfl | restored
      · exact at_.symm
      · obtain ⟨d, at_'', isUnsettled⟩ :=
          mem_unsettled.1 (all i (mem_unsettled.2 ⟨c, at_, restored.unsettled⟩))
        obtain rfl := Option.some.inj (at_'.symm.trans at_'')
        exact absurd isUnsettled restored.settled

/-- Once there are as many restorations as unsettled symbols, one more changes nothing. -/
theorem restore_iterate {n : Nat} {zenz : Text}
    (few : (unsettled key mozcValue zenz).card ≤ n) :
    restoreUserVisibleSymbolStyle key mozcValue
        ((restoreUserVisibleSymbolStyle key mozcValue)^[n] zenz) =
      (restoreUserVisibleSymbolStyle key mozcValue)^[n] zenz := by
  induction n generalizing zenz with
  | zero =>
      by_contra changed
      have less := Finset.card_lt_card
        (unsettled_ssubset (differsBy_restoreUserVisibleSymbolStyle key mozcValue zenz) changed)
      exact absurd (less.trans_le few) (Nat.not_lt_zero _)
  | succ n ih =>
      rw [Function.iterate_succ_apply]
      by_cases changed : restoreUserVisibleSymbolStyle key mozcValue zenz = zenz
      · rw [changed, Function.iterate_fixed changed]
        exact changed
      · have less := Finset.card_lt_card
          (unsettled_ssubset (differsBy_restoreUserVisibleSymbolStyle key mozcValue zenz) changed)
        exact ih (Nat.le_of_lt_succ (less.trans_le few))

/-- A character of one of the groups. -/
def isSymbol (c : Char) : Bool := symbolGroups.any fun group => group.variants.contains c

theorem isSymbol_of_unsettled (isUnsettled : Unsettled key mozcValue i c) : isSymbol c = true := by
  obtain ⟨group, isGroup, _, _, variant, _⟩ := isUnsettled
  exact List.any_eq_true.2 ⟨group, isGroup, List.contains_iff_mem.2 variant⟩

theorem card_positions (p : Char → Bool) (text : Text) :
    ((Finset.range text.length).filter fun i => (text[i]?).any p = true).card = text.countP p := by
  induction text using List.reverseRecOn with
  | nil => rfl
  | append_singleton text c ih =>
      have front : ((Finset.range text.length).filter fun i => ((text ++ [c])[i]?).any p = true) =
          (Finset.range text.length).filter fun i => (text[i]?).any p = true := by
        refine Finset.filter_congr fun i inside => ?_
        rw [List.getElem?_append_left (Finset.mem_range.1 inside)]
      rw [List.length_append, List.length_singleton, Finset.range_add_one, Finset.filter_insert,
        front, List.countP_append, List.countP_singleton, List.getElem?_concat_length, ← ih]
      cases isP : p c with
      | false => simp [isP]
      | true => simp [isP]

/-- No more symbols than there are. -/
theorem card_unsettled_le (key mozcValue zenz : Text) :
    (unsettled key mozcValue zenz).card ≤ zenz.countP isSymbol := by
  rw [← card_positions]
  refine Finset.card_le_card fun i member => ?_
  obtain ⟨c, at_, isUnsettled⟩ := mem_unsettled.1 member
  refine Finset.mem_filter.2 ⟨Finset.mem_range.2 (List.getElem?_eq_some_iff.1 at_).1, ?_⟩
  rw [at_]
  exact isSymbol_of_unsettled isUnsettled

/-! ## Sources with one variant -/

/-- A group that needs no more restoration: no symbols of its variant are missing, or all symbols
have it. -/
def Done (source : Text) (group : SymbolGroup) (zenz : Text) : Prop :=
  ∀ a ∈ group.variants, a ∈ source →
    source.count a ≤ zenz.count a ∨ ∀ c ∈ zenz, c ∈ group.variants → c = a

section
variable {source zenz : Text} {group : SymbolGroup} {b : Budgets} {a : Char}

/-- Where nothing is to be replaced, the loop changes nothing. -/
theorem restoreFrom_eq_self {rest : Text} {i : Nat}
    (stays : ∀ j c, rest[j]? = some c → target source zenz group b (i + j) c = none) :
    restoreFrom source zenz group b i rest = rest := by
  induction rest generalizing i with
  | nil => rfl
  | cons c rest ih =>
      have first : target source zenz group b i c = none := stays 0 c rfl
      rw [restoreFrom, first]
      refine congrArg (c :: ·) (ih fun j d at_ => ?_)
      rw [Nat.add_assoc, Nat.add_comm 1]
      exact stays (j + 1) d at_

/-- A group that is done stays as it is. -/
theorem restore_of_done (one : activeSourceVariantCount source group = 1)
    (done : Done source group zenz) : restoreSymbolGroupStyle source zenz group = zenz := by
  unfold restoreSymbolGroupStyle
  split_ifs with nothing inactive complete
  · rfl
  · rfl
  · rfl
  · rw [Bool.not_eq_true, List.all_eq_false] at complete
    obtain ⟨a, variant, missing⟩ := complete
    have less : zenz.count a < source.count a := by
      rw [decide_eq_true_iff] at missing
      exact (Budgets.Within.of source zenz).of_missing (Nat.pos_of_ne_zero missing)
    have inSource : a ∈ source := List.count_pos_iff.1 (Nat.zero_lt_of_lt less)
    have only := (done a variant inSource).resolve_left (Nat.not_le.2 less)
    refine restoreFrom_eq_self fun j c at_ => ?_
    by_contra replaces
    obtain ⟨v, found⟩ := Option.ne_none_iff_exists'.1 replaces
    have replaced := replaced_of_target (.of source zenz) found
    obtain rfl := only c (List.mem_of_getElem? at_) replaced.variant
    exact replaced.unsettled (.inl fun v isV inV =>
      eq_of_active_eq_one one isV inV variant inSource)

/-- No symbol of the group is kept from being widened by a token next to it. -/
def Free (zenz : Text) (group : SymbolGroup) : Prop :=
  group.avoidAsciiTokenFallbackWhenWidening = true → ∀ i c, zenz[i]? = some c →
    c ∈ group.variants → hasAsciiTokenNeighborForSymbolRestore zenz i = false

/-- As long as symbols are missing, others are replaced by them. -/
theorem target_isSome (one : activeSourceVariantCount source group = 1) (free : Free zenz group)
    (variant : a ∈ group.variants) {i : Nat} {c : Char} (at_ : zenz[i]? = some c)
    (isSymbol : c ∈ group.variants) (missing : 0 < b.missing a) (excess : 0 < b.excess c) :
    target source zenz group b i c ≠ none := by
  intro nothing
  have noFallback := (Option.or_eq_none_iff.1 nothing).2
  unfold fallbackTarget at noFallback
  rw [if_pos ⟨List.contains_iff_mem.2 isSymbol, excess, one⟩, List.find?_eq_none] at noFallback
  refine noFallback a variant ?_
  rw [Bool.and_eq_true, decide_eq_true_iff]
  refine ⟨missing, ?_⟩
  cases avoid : group.avoidAsciiTokenFallbackWhenWidening with
  | false => rfl
  | true =>
      rw [free avoid i c at_ isSymbol, Bool.and_false]
      rfl

theorem missing_of_target {i : Nat} {c v : Char}
    (found : target source zenz group b i c = some v) : 0 < b.missing v := by
  rcases Option.or_eq_some_iff.1 found with positional | ⟨-, fallback⟩
  · have check := (Option.filter_eq_some_iff.1 positional).2
    rw [Bool.and_eq_true, decide_eq_true_iff] at check
    exact check.2
  · unfold fallbackTarget at fallback
    split_ifs at fallback
    have check := List.find?_some fallback
    rw [Bool.and_eq_true, decide_eq_true_iff] at check
    exact check.1

/-- The loop uses up what is missing, or it replaces all other symbols. -/
theorem restoreFrom_done (one : activeSourceVariantCount source group = 1) (free : Free zenz group)
    (variant : a ∈ group.variants) (inSource : a ∈ source) (within : b.Within source zenz) {i : Nat}
    {rest : Text} (isRest : ∀ j c, rest[j]? = some c → zenz[i + j]? = some c)
    (enough : ∀ c ∈ group.variants, c ≠ a → rest.count c ≤ b.excess c) :
    rest.count a ≤ (restoreFrom source zenz group b i rest).count a ∧
      (rest.count a + b.missing a ≤ (restoreFrom source zenz group b i rest).count a ∨
        ∀ c ∈ restoreFrom source zenz group b i rest, c ∈ group.variants → c = a) := by
  induction rest generalizing b i with
  | nil => exact ⟨le_rfl, .inr fun c member => absurd member List.not_mem_nil⟩
  | cons c rest ih =>
      have isRest' : ∀ j d, rest[j]? = some d → zenz[i + 1 + j]? = some d := by
        intro j d at_
        rw [Nat.add_assoc, Nat.add_comm 1]
        exact isRest (j + 1) d at_
      have fewer (d : Char) : rest.count d ≤ (c :: rest).count d := List.count_le_count_cons
      rw [restoreFrom]
      cases found : target source zenz group b i c with
      | none =>
          dsimp only
          obtain ⟨most, all⟩ := ih within isRest' fun d isD ne => (fewer d).trans (enough d isD ne)
          rw [List.count_cons, List.count_cons]
          refine ⟨by omega, ?_⟩
          by_cases other : c ∈ group.variants ∧ c ≠ a
          · left
            have exhausted : b.missing a = 0 := by
              by_contra some_
              have counted : 0 < (c :: rest).count c := List.count_pos_iff.2 List.mem_cons_self
              exact target_isSome one free variant (isRest 0 c rfl) other.1
                (Nat.pos_of_ne_zero some_) (counted.trans_le (enough c other.1 other.2)) found
            omega
          · rcases all with used | only
            · exact .inl (by omega)
            · refine .inr (List.forall_mem_cons.2 ⟨fun isC => ?_, only⟩)
              by_contra ne
              exact other ⟨isC, ne⟩
      | some v =>
          have replaced := replaced_of_target within found
          obtain rfl := eq_of_active_eq_one one replaced.variant' replaced.inSource variant inSource
          have missing := missing_of_target found
          have ne := replaced.ne
          have enough' : ∀ d ∈ group.variants, d ≠ v → rest.count d ≤ (b.spend c v).excess d := by
            intro d isD neD
            have before := enough d isD neD
            unfold Budgets.spend
            dsimp only
            rw [Function.update_apply]
            split_ifs with same
            · subst same
              rw [List.count_cons_self] at before
              omega
            · exact (fewer d).trans before
          have spent : (b.spend c v).missing v = b.missing v - 1 := Function.update_self _ _ _
          obtain ⟨most, all⟩ := ih (within.spend c v) isRest' enough'
          rw [spent] at all
          dsimp only
          rw [List.count_cons_self, List.count_cons_of_ne ne.symm]
          refine ⟨by omega, ?_⟩
          rcases all with used | only
          · exact .inl (by omega)
          · exact .inr (List.forall_mem_cons.2 ⟨fun _ => rfl, only⟩)

/-- A restoration that nothing holds back is done. -/
theorem done_restore (one : activeSourceVariantCount source group = 1) (free : Free zenz group) :
    Done source group (restoreSymbolGroupStyle source zenz group) := by
  intro a variant inSource
  unfold restoreSymbolGroupStyle
  split_ifs with nothing inactive complete
  · rw [Bool.or_eq_true, Bool.or_eq_true, List.isEmpty_iff, List.isEmpty_iff, List.isEmpty_iff]
      at nothing
    rcases nothing with (noSource | noZenz) | noVariants
    · rw [noSource] at inSource
      cases inSource
    · rw [noZenz]
      exact .inr fun c member => absurd member List.not_mem_nil
    · rw [noVariants] at variant
      cases variant
  · rw [one] at inactive
    cases inactive
  · have zero := List.all_eq_true.1 complete a variant
    rw [decide_eq_true_iff] at zero
    exact .inl (Nat.sub_eq_zero_iff_le.1 zero)
  · have enough : ∀ c ∈ group.variants, c ≠ a →
        zenz.count c ≤ (Budgets.of source zenz).excess c := by
      intro c isC ne
      have absent : c ∉ source := fun inC => ne (eq_of_active_eq_one one isC inC variant inSource)
      have zero : source.count c = 0 := List.count_eq_zero.2 absent
      have excess : (Budgets.of source zenz).excess c = zenz.count c - source.count c := rfl
      rw [excess, zero, Nat.sub_zero]
    have isRest : ∀ j c, zenz[j]? = some c → zenz[0 + j]? = some c := fun j c at_ => by
      rwa [Nat.zero_add]
    refine (restoreFrom_done one free variant inSource (.of source zenz) isRest enough).2.imp_left
      fun used => ?_
    have missing : (Budgets.of source zenz).missing a = source.count a - zenz.count a := rfl
    rw [missing] at used
    omega

end

/-- A character is a symbol of one of the groups, before and after. -/
def Among (groups : List SymbolGroup) (_ : Nat) (c c' : Char) : Prop :=
  ∃ group ∈ groups, c ∈ group.variants ∧ c' ∈ group.variants

section
variable {groups : List SymbolGroup} {group : SymbolGroup} {source zenz result : Text}

/-- Restoring some of the groups changes their symbols only. -/
theorem differsBy_among (areGroups : ∀ group ∈ groups, group ∈ symbolGroups)
    (key mozcValue zenz : Text) :
    DiffersBy (Among groups) zenz
      (groups.foldl (restoreSymbolGroupStyleFromKeyOrMozc key mozcValue) zenz) := by
  refine .foldl (fun i c c' c'' among among' => ?_) (fun group isGroup zenz => ?_) zenz
  · obtain ⟨group, isGroup, variant, variant'⟩ := among
    obtain ⟨group', isGroup', variant₁, variant''⟩ := among'
    obtain rfl := eq_of_mem_variants group (areGroups group isGroup) group'
      (areGroups group' isGroup') c' variant' variant₁
    exact ⟨group, isGroup, variant, variant''⟩
  · unfold restoreSymbolGroupStyleFromKeyOrMozc
    split
    · exact .refl _ _
    · rename_i source _
      obtain ⟨length, chars⟩ := differsBy_restoreSymbolGroupStyle source zenz group
      refine ⟨length, fun i c c' at_ at_' => (chars i c c' at_ at_').imp id fun replaced => ?_⟩
      exact ⟨group, isGroup, replaced.variant, replaced.variant'⟩

/-- Characters of no group stay where they are. -/
theorem DiffersBy.getElem?_eq_some_iff (differs : DiffersBy (Among groups) zenz result) {a : Char}
    (other : ∀ group ∈ groups, a ∉ group.variants) (i : Nat) :
    result[i]? = some a ↔ zenz[i]? = some a := by
  by_cases inside : i < zenz.length
  · obtain ⟨c, at_⟩ : ∃ c, zenz[i]? = some c := ⟨_, List.getElem?_eq_getElem inside⟩
    obtain ⟨c', at_'⟩ : ∃ c', result[i]? = some c' :=
      ⟨_, List.getElem?_eq_getElem (differs.length_eq.symm ▸ inside)⟩
    rcases differs.chars i c c' at_ at_' with rfl | ⟨group, isGroup, variant, variant'⟩
    · rw [at_, at_']
    · rw [at_, at_']
      constructor
      · rintro ⟨⟩
        exact absurd variant' (other group isGroup)
      · rintro ⟨⟩
        exact absurd variant (other group isGroup)
  · have outside := Nat.le_of_not_lt inside
    rw [List.getElem?_eq_none outside, List.getElem?_eq_none (differs.length_eq ▸ outside)]

theorem DiffersBy.count_eq (differs : DiffersBy (Among groups) zenz result) {a : Char}
    (other : ∀ group ∈ groups, a ∉ group.variants) : result.count a = zenz.count a := by
  unfold List.count
  rw [← card_positions, ← card_positions, differs.length_eq]
  congr 1
  refine Finset.filter_congr fun i _ => ?_
  have anyIff (o : Option Char) : o.any (· == a) = true ↔ o = some a := by
    rw [Option.any_eq_true]
    constructor
    · rintro ⟨c, rfl, isA⟩
      exact congrArg some (beq_iff_eq.1 isA)
    · rintro rfl
      exact ⟨a, rfl, beq_self_eq_true a⟩
  rw [anyIff, anyIff]
  exact differs.getElem?_eq_some_iff other i

/-- What the other groups change leaves a group done. -/
theorem Done.differsBy (done : Done source group zenz)
    (differs : DiffersBy (Among groups) zenz result)
    (other : ∀ a ∈ group.variants, ∀ group ∈ groups, a ∉ group.variants) :
    Done source group result := by
  intro a variant inSource
  refine (done a variant inSource).imp (fun enough => ?_) fun only c member isC => ?_
  · rwa [differs.count_eq (other a variant)]
  · obtain ⟨i, at_⟩ := List.mem_iff_getElem?.1 member
    rw [differs.getElem?_eq_some_iff (other c isC)] at at_
    exact only c (List.mem_of_getElem? at_) isC

/-- Symbols that are no tokens do not change what stands next to a character. -/
theorem DiffersBy.isToken (differs : DiffersBy (Among groups) zenz result)
    (noTokens : ∀ group ∈ groups, ∀ c ∈ group.variants, isAsciiTokenCharForSymbolRestore c = false)
    (i : Nat) :
    (result[i]?).any isAsciiTokenCharForSymbolRestore =
      (zenz[i]?).any isAsciiTokenCharForSymbolRestore := by
  by_cases inside : i < zenz.length
  · obtain ⟨c, at_⟩ : ∃ c, zenz[i]? = some c := ⟨_, List.getElem?_eq_getElem inside⟩
    obtain ⟨c', at_'⟩ : ∃ c', result[i]? = some c' :=
      ⟨_, List.getElem?_eq_getElem (differs.length_eq.symm ▸ inside)⟩
    rw [at_, at_', Option.any_some, Option.any_some]
    rcases differs.chars i c c' at_ at_' with rfl | ⟨group, isGroup, variant, variant'⟩
    · rfl
    · rw [noTokens group isGroup c variant, noTokens group isGroup c' variant']
  · have outside := Nat.le_of_not_lt inside
    rw [List.getElem?_eq_none outside, List.getElem?_eq_none (differs.length_eq ▸ outside)]

theorem Free.differsBy (free : Free zenz group) (differs : DiffersBy (Among groups) zenz result)
    (other : ∀ a ∈ group.variants, ∀ group ∈ groups, a ∉ group.variants)
    (noTokens : ∀ group ∈ groups, ∀ c ∈ group.variants,
      isAsciiTokenCharForSymbolRestore c = false) :
    Free result group := by
  intro avoid i c at_ variant
  rw [differs.getElem?_eq_some_iff (other c variant)] at at_
  have before := free avoid i c at_ variant
  unfold hasAsciiTokenNeighborForSymbolRestore at before ⊢
  rw [differs.isToken noTokens, differs.isToken noTokens]
  exact before

end

/-- The symbols of every group have one style only, and no symbol of a group that is guarded stands
next to a token. -/
def Calm (key mozcValue zenz : Text) : Prop :=
  ∀ group ∈ symbolGroups, ∀ source, styleSource key mozcValue group = some source →
    activeSourceVariantCount source group = 1 ∧ Free zenz group

theorem nodup_symbolGroups : symbolGroups.Nodup := by decide

/-- A full stop is the only symbol that is a token, and its group is the last one. -/
theorem symbols_not_tokens : ∀ group ∈ symbolGroups.dropLast, ∀ c ∈ group.variants,
    isAsciiTokenCharForSymbolRestore c = false := by
  simp [symbolGroups, isAsciiTokenCharForSymbolRestore]

theorem Calm.done {zenz source : Text} {group : SymbolGroup} (calm : Calm key mozcValue zenz)
    (isGroup : group ∈ symbolGroups) (isSource : styleSource key mozcValue group = some source) :
    Done source group (restoreUserVisibleSymbolStyle key mozcValue zenz) := by
  obtain ⟨one, free⟩ := calm group isGroup source isSource
  obtain ⟨before, after, split⟩ := List.append_of_mem isGroup
  have distinct := nodup_symbolGroups
  rw [split, List.nodup_middle, List.nodup_cons, List.mem_append, not_or] at distinct
  have areGroups (other : SymbolGroup) (member : other ∈ before ∨ other ∈ after) :
      other ∈ symbolGroups := by
    rw [split, List.mem_append, List.mem_cons]
    exact member.imp id .inr
  have apart (a : Char) (variant : a ∈ group.variants) (other : SymbolGroup)
      (member : other ∈ before ∨ other ∈ after) : a ∉ other.variants := by
    intro variant'
    obtain rfl := eq_of_mem_variants group isGroup other (areGroups other member) a variant variant'
    exact member.elim distinct.1.1 distinct.1.2
  unfold restoreUserVisibleSymbolStyle
  rw [split, List.foldl_append, List.foldl_cons]
  generalize isFirst :
    before.foldl (restoreSymbolGroupStyleFromKeyOrMozc key mozcValue) zenz = first
  have changed := differsBy_among (fun other member => areGroups other (.inl member))
    key mozcValue zenz
  rw [isFirst] at changed
  have freeFirst : Free first group := by
    refine free.differsBy changed (fun a variant other member =>
      apart a variant other (.inl member)) fun other member => symbols_not_tokens other ?_
    rw [split, List.dropLast_append_of_ne_nil (List.cons_ne_nil _ _)]
    exact List.mem_append_left _ member
  have doneFirst : Done source group
      (restoreSymbolGroupStyleFromKeyOrMozc key mozcValue first group) := by
    unfold restoreSymbolGroupStyleFromKeyOrMozc
    rw [isSource]
    exact done_restore one freeFirst
  exact doneFirst.differsBy
    (differsBy_among (fun other member => areGroups other (.inr member)) key mozcValue _)
    fun a variant other member => apart a variant other (.inr member)

/-- Restoring symbols with one style only is enough once. -/
theorem Calm.restore {zenz : Text} (calm : Calm key mozcValue zenz) :
    restoreUserVisibleSymbolStyle key mozcValue
        (restoreUserVisibleSymbolStyle key mozcValue zenz) =
      restoreUserVisibleSymbolStyle key mozcValue zenz := by
  have stays (group : SymbolGroup) (isGroup : group ∈ symbolGroups) :
      restoreSymbolGroupStyleFromKeyOrMozc key mozcValue
          (restoreUserVisibleSymbolStyle key mozcValue zenz) group =
        restoreUserVisibleSymbolStyle key mozcValue zenz := by
    cases isSource : styleSource key mozcValue group with
    | none =>
        unfold restoreSymbolGroupStyleFromKeyOrMozc
        rw [isSource]
    | some source =>
        unfold restoreSymbolGroupStyleFromKeyOrMozc
        rw [isSource]
        exact restore_of_done (calm group isGroup source isSource).1 (calm.done isGroup isSource)
  generalize restoreUserVisibleSymbolStyle key mozcValue zenz = result at stays ⊢
  unfold restoreUserVisibleSymbolStyle
  refine List.foldlRecOn (motive := fun text => text = result) symbolGroups _ rfl ?_
  intro text same group isGroup
  rw [same]
  exact stays group isGroup

/-- The marks of a key with one style. -/
theorem calm_marks : Calm ['!', '!'] [] ['！', 'a', '！'] := by
  unfold Calm
  simp [symbolGroups, styleSource, containsAnySymbolStyleVariant, activeSourceVariantCount, Free]

/-- **Only symbols are replaced, and restorations come to an end**: after as many of them as there
are symbols, or after one where every symbol has one style and stands free. -/
theorem restoreUserVisibleSymbolStyle_spec (key mozcValue zenz : Text) :
    DiffersBy (Restored key mozcValue) zenz (restoreUserVisibleSymbolStyle key mozcValue zenz) ∧
      (∀ n, zenz.countP isSymbol ≤ n →
        restoreUserVisibleSymbolStyle key mozcValue
            ((restoreUserVisibleSymbolStyle key mozcValue)^[n] zenz) =
          (restoreUserVisibleSymbolStyle key mozcValue)^[n] zenz) ∧
      (Calm key mozcValue zenz →
        restoreUserVisibleSymbolStyle key mozcValue
            (restoreUserVisibleSymbolStyle key mozcValue zenz) =
          restoreUserVisibleSymbolStyle key mozcValue zenz) :=
  ⟨differsBy_restoreUserVisibleSymbolStyle key mozcValue zenz,
    fun _ many => restore_iterate ((card_unsettled_le key mozcValue zenz).trans many),
    Calm.restore⟩

/-- Two full-width marks become ASCII ones, as in the key. -/
theorem restoreUserVisibleSymbolStyle_marks :
    restoreUserVisibleSymbolStyle ['!', '!'] []
        (restoreUserVisibleSymbolStyle ['!', '!'] [] ['！', 'a', '！']) =
      restoreUserVisibleSymbolStyle ['!', '!'] [] ['！', 'a', '！'] :=
  (restoreUserVisibleSymbolStyle_spec ['!', '!'] [] ['！', 'a', '！']).2.2 calm_marks

/-- A source with both variants of an exclamation mark: the symbols move when they are restored
again. -/
theorem not_restoreUserVisibleSymbolStyle_idempotent :
    ¬ ∀ key mozcValue zenz : Text,
      (DiffersBy (Restored key mozcValue) zenz (restoreUserVisibleSymbolStyle key mozcValue zenz) ∧
        restoreUserVisibleSymbolStyle key mozcValue
            (restoreUserVisibleSymbolStyle key mozcValue zenz) =
          restoreUserVisibleSymbolStyle key mozcValue zenz) := by
  intro all
  have same := (all ['!', '！', '!'] [] ['！', '!', 'x']).2
  exact absurd same (by decide +kernel)

end Mozkey.Session.ZenzOutputValidator
