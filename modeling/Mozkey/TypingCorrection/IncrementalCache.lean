import Mozkey.Lib.SortedMap
import Mozkey.TypingCorrection.RomanTypingCorrector

/-!
# The incremental cache of the typing corrector

`IncrementalRomanCache` keeps the hypotheses of recent inputs.  A cached input is
answered from the cache.  For an input that goes on from a cached one, the cached
hypotheses are extended by the new characters and merged with freshly generated
ones.

The cache is meant to be invisible: a call should return what `Generate` returns.
Two things break this.  A cached input is answered without looking at the limits
of the call.  And a hypothesis of a rule for whole inputs is extended like any
other, although the rule does not apply to the longer input.  When neither
happens, the cache is invisible.
-/

namespace Mozkey.TypingCorrection

open Mozkey.Lib

/-! ## The cache -/

structure IncrementalRomanCache where
  maxEntries : Nat := 32
  entries : SortedMap ByteString (List Hypothesis) := SortedMap.empty
  hitCount : Nat := 0
  missCount : Nat := 0

def isBetterCachedHypothesis (lhs rhs : Hypothesis) : Bool := isBetter lhs rhs

/-- The order in which reused hypotheses are sorted; it does not look at the
rules. -/
def isCheaperReused (lhs rhs : Hypothesis) : Bool :=
  if lhs.autoApplicable ≠ rhs.autoApplicable then lhs.autoApplicable
  else if lhs.editCost ≠ rhs.editCost then lhs.editCost < rhs.editCost
  else lhs.correctedRaw < rhs.correctedRaw

/-- A reused hypothesis joins the fresh ones. -/
def mergeReused (byCorrectedRaw : SortedMap ByteString Hypothesis) (hypothesis : Hypothesis) :
    SortedMap ByteString Hypothesis :=
  match byCorrectedRaw.find hypothesis.correctedRaw with
  | none => byCorrectedRaw.assign hypothesis.correctedRaw hypothesis
  | some existing =>
      if isBetterCachedHypothesis hypothesis existing
      then byCorrectedRaw.assign hypothesis.correctedRaw hypothesis
      else byCorrectedRaw

def mergeHypotheses (fresh reused : List Hypothesis) (limits : Limits) : List Hypothesis :=
  let byCorrectedRaw := fresh.foldl (fun m h => m.assign h.correctedRaw h) SortedMap.empty
  let byCorrectedRaw := reused.foldl mergeReused byCorrectedRaw
  let result := sortBy isBetterCachedHypothesis (byCorrectedRaw.elements.map Prod.snd)
  result.take limits.maxRawHypotheses

/-- `std::max_element`. -/
def maxElement {α : Type*} (less : α → α → Bool) : List α → Option α
  | [] => none
  | x :: xs => some (xs.foldl (fun largest e => if less largest e then e else largest) x)

/-- Prefixes of `raw` are greater than other keys, and longer keys than shorter
ones. -/
def isShorterPrefix (raw lhs rhs : ByteString) : Bool :=
  let lhsPrefix := lhs.isPrefixOf raw
  let rhsPrefix := rhs.isPrefixOf raw
  if lhsPrefix ≠ rhsPrefix then !lhsPrefix else lhs.length < rhs.length

/-- The hypothesis for the longer input, when the cached one can be reused. -/
def reuse (raw suffix : ByteString) (prefixSize : Nat) (hypothesis : Hypothesis) :
    Option Hypothesis :=
  match hypothesis.edits with
  | [] => none
  | edit :: _ =>
      if hypothesis.correctedRaw = [] then none
      else if edit.rawStart + edit.rawLength > prefixSize then none
      else some (hypothesis.extend raw suffix)

namespace IncrementalRomanCache

/-- The cached input that `raw` goes on from: the longest one. -/
def longestPrefix (cache : IncrementalRomanCache) (raw : ByteString) :
    Option (ByteString × List Hypothesis) :=
  match maxElement (fun lhs rhs => isShorterPrefix raw lhs.1 rhs.1) cache.entries.elements with
  | none => none
  | some longest =>
      if !longest.1.isPrefixOf raw ∨ longest.1.length = raw.length then none else some longest

/-- `FindPrefixReuse`. -/
def findPrefixReuse (cache : IncrementalRomanCache) (raw : ByteString) (limits : Limits) :
    Option (List Hypothesis) :=
  match cache.entries.find raw with
  | some exact_ => some exact_
  | none =>
      match cache.longestPrefix raw with
      | none => none
      | some longest =>
          let suffix := raw.drop longest.1.length
          let reused := longest.2.filterMap (reuse raw suffix longest.1.length)
          if reused = [] then none
          else some ((sortBy isCheaperReused reused).take limits.maxRawHypotheses)

/-- `Store`.  The loop drops the first entry until the bound holds. -/
def store (cache : IncrementalRomanCache) (raw : ByteString) (hypotheses : List Hypothesis) :
    IncrementalRomanCache :=
  if cache.maxEntries = 0 then cache
  else
    let entries := cache.entries.assign raw hypotheses
    { cache with
      entries := SortedMap.eraseFirst^[entries.size - cache.maxEntries] entries }

/-- `GetOrGenerate`: the hypotheses and the cache afterwards. -/
def getOrGenerate (rules : List RomanRule) (cache : IncrementalRomanCache) (raw : ByteString)
    (limits : Limits) : List Hypothesis × IncrementalRomanCache :=
  match cache.entries.find raw with
  | some exact_ => (exact_, { cache with hitCount := cache.hitCount + 1 })
  | none =>
      match cache.findPrefixReuse raw limits with
      | some reused =>
          let cache := { cache with hitCount := cache.hitCount + 1 }
          let merged := mergeHypotheses (generate rules raw limits) reused limits
          (merged, cache.store raw merged)
      | none =>
          let cache := { cache with missCount := cache.missCount + 1 }
          let generated := generate rules raw limits
          (generated, cache.store raw generated)

end IncrementalRomanCache

/-! ## Merging -/

section Merge

variable {rules : List RomanRule} {raw : ByteString} {limits : Limits}

/-- Some candidate of the input has the same text and is as good. -/
def Covered (rules : List RomanRule) (raw : ByteString) (limits : Limits) (h : Hypothesis) : Prop :=
  ∃ d ∈ candidatesOf rules raw limits, d.correctedRaw = h.correctedRaw ∧ rank d ≤ rank h

/-- The map holds the fresh hypotheses and, under other texts, covered ones. -/
structure Merges (rules : List RomanRule) (raw : ByteString) (limits : Limits)
    (fresh : List Hypothesis) (m : SortedMap ByteString Hypothesis) : Prop where
  key : ∀ e ∈ m.elements, e.1 = e.2.correctedRaw
  holds : ∀ h ∈ fresh, (h.correctedRaw, h) ∈ m.elements
  others : ∀ e ∈ m.elements, e.2 ∈ fresh ∨
    (e.1 ∉ fresh.map Hypothesis.correctedRaw ∧ Covered rules raw limits e.2)

/-- The map of the fresh hypotheses. -/
theorem mem_freshMap {fresh : List Hypothesis}
    (distinct : (fresh.map Hypothesis.correctedRaw).Nodup) {e : ByteString × Hypothesis} :
    e ∈ (fresh.foldl (fun m h => m.assign h.correctedRaw h) SortedMap.empty).elements ↔
      e.2 ∈ fresh ∧ e.1 = e.2.correctedRaw := by
  induction fresh using List.reverseRecOn with
  | nil => simp [SortedMap.empty]
  | append_singleton fresh h ih =>
      rw [List.map_append, List.map_singleton, List.nodup_append] at distinct
      obtain ⟨before, -, apart⟩ := distinct
      rw [List.foldl_append, List.foldl_cons, List.foldl_nil, SortedMap.mem_assign, ih before,
        List.mem_append, List.mem_singleton]
      constructor
      · rintro (rfl | ⟨⟨old, key⟩, -⟩)
        · exact ⟨.inr rfl, rfl⟩
        · exact ⟨.inl old, key⟩
      · rintro ⟨old | new, key⟩
        · refine .inr ⟨⟨old, key⟩, ?_⟩
          rw [key]
          exact apart _ (List.mem_map_of_mem old) _ (List.mem_singleton_self _)
        · exact .inl (Prod.ext (key.trans (congrArg _ new)) new)

theorem merges_fresh {fresh : List Hypothesis}
    (distinct : (fresh.map Hypothesis.correctedRaw).Nodup) :
    Merges rules raw limits fresh
      (fresh.foldl (fun m h => m.assign h.correctedRaw h) SortedMap.empty) where
  key _ member := ((mem_freshMap distinct).1 member).2
  holds _ member := (mem_freshMap distinct).2 ⟨member, rfl⟩
  others _ member := .inl ((mem_freshMap distinct).1 member).1

/-- A covered hypothesis does not displace a fresh one. -/
theorem Merges.mergeReused {fresh : List Hypothesis} {m : SortedMap ByteString Hypothesis}
    (merges : Merges rules raw limits fresh m) {h : Hypothesis}
    (generated : ∀ f ∈ fresh, f ∈ candidatesOf rules raw limits)
    (covered : Covered rules raw limits h) :
    Merges rules raw limits fresh (mergeReused m h) := by
  have selects := candidatesOf_selects rules raw limits
  have assigned : h.correctedRaw ∉ fresh.map Hypothesis.correctedRaw →
      Merges rules raw limits fresh (m.assign h.correctedRaw h) := by
    intro fresh_
    refine ⟨?_, ?_, ?_⟩
    · intro e member
      rcases SortedMap.mem_assign.1 member with rfl | ⟨old, -⟩
      · rfl
      · exact merges.key e old
    · intro f member
      refine SortedMap.mem_assign.2 (.inr ⟨merges.holds f member, ?_⟩)
      exact fun same => fresh_ (List.mem_map.2 ⟨f, member, same⟩)
    · intro e member
      rcases SortedMap.mem_assign.1 member with rfl | ⟨old, -⟩
      · exact .inr ⟨fresh_, covered⟩
      · exact merges.others e old
  unfold TypingCorrection.mergeReused
  cases found : m.find h.correctedRaw with
  | none =>
      refine assigned ?_
      intro present
      obtain ⟨f, member, same⟩ := List.mem_map.1 present
      exact SortedMap.find_eq_none.1 found _ (merges.holds f member) same
  | some existing =>
      dsimp only
      have member := SortedMap.mem_of_find found
      have key := merges.key _ member
      split
      · rename_i improves
        rcases merges.others _ member with known | ⟨fresh_, -⟩
        · -- A fresh hypothesis is the best one with its text.
          obtain ⟨d, candidate, text, below⟩ := covered
          have same : d = existing :=
            List.inj_on_of_nodup_map selects.distinct candidate (generated existing known)
              (text.trans key)
          have above := (isBetter_iff h existing).1 improves
          exact absurd (same ▸ below) (not_le.2 above)
        · exact assigned fresh_
      · exact merges

/-- Merging covered hypotheses into generated ones changes nothing. -/
theorem mergeHypotheses_eq_fresh (some_ : raw ≠ []) (searches : limits.Searches)
    {reused : List Hypothesis} (covered : ∀ h ∈ reused, Covered rules raw limits h) :
    mergeHypotheses (generate rules raw limits) reused limits = generate rules raw limits := by
  have selects := candidatesOf_selects rules raw limits
  have best := generate_eq rules some_ searches
  have sorted := sortBy_sorted isBetter_iff (candidatesOf rules raw limits)
  have perm := sortBy_perm isBetter (candidatesOf rules raw limits)
  generalize generate rules raw limits = fresh at best ⊢
  have generated : ∀ f ∈ fresh, f ∈ candidatesOf rules raw limits := by
    intro f member
    rw [best] at member
    exact perm.subset (List.mem_of_mem_take member)
  have distinct : (fresh.map Hypothesis.correctedRaw).Nodup := by
    rw [best, List.map_take]
    exact ((perm.map _).nodup_iff.2 selects.distinct).sublist (List.take_sublist _ _)
  have merges : Merges rules raw limits fresh (reused.foldl TypingCorrection.mergeReused
      (fresh.foldl (fun m h => m.assign h.correctedRaw h) SortedMap.empty)) := by
    induction reused using List.reverseRecOn with
    | nil => exact merges_fresh distinct
    | append_singleton reused h ih =>
        rw [List.foldl_append, List.foldl_cons, List.foldl_nil]
        exact (ih fun g member => covered g (List.mem_append_left _ member)).mergeReused generated
          (covered h (by simp))
  unfold mergeHypotheses
  dsimp only
  generalize reused.foldl TypingCorrection.mergeReused _ = m at merges ⊢
  have texts : (m.elements.map Prod.snd).map Hypothesis.correctedRaw = m.elements.map Prod.fst := by
    rw [List.map_map]
    exact List.map_congr_left fun e member => (merges.key e member).symm
  have apart : ((m.elements.map Prod.snd).map Hypothesis.correctedRaw).Nodup :=
    texts ▸ m.keys_nodup
  have ranks : ((m.elements.map Prod.snd).map rank).Nodup := by
    refine List.Nodup.map_on ?_ apart.of_map
    intro a left b right same
    exact List.inj_on_of_nodup_map apart left right (rank_injOn_text same)
  have split : (m.elements.map Prod.snd).Perm
      (fresh ++ (m.elements.map Prod.snd).filter fun h => !decide (h ∈ fresh)) := by
    have kept : ((m.elements.map Prod.snd).filter fun h => decide (h ∈ fresh)).Perm fresh := by
      refine (List.perm_ext_iff_of_nodup (apart.of_map.filter _) distinct.of_map).2 ?_
      intro h
      rw [List.mem_filter, decide_eq_true_eq]
      exact ⟨And.right, fun member => ⟨List.mem_map.2 ⟨_, merges.holds h member, rfl⟩, member⟩⟩
    exact (List.filter_append_perm _ _).symm.trans (kept.append_right _)
  -- A merged hypothesis that is not fresh stands for a candidate beyond the cut.
  have beyond : ∀ x ∈ (m.elements.map Prod.snd).filter fun h => !decide (h ∈ fresh),
      (∀ f ∈ fresh, rank f ≤ rank x) ∧ fresh.length = limits.maxRawHypotheses := by
    intro x member
    rw [List.mem_filter, Bool.not_eq_true', decide_eq_false_iff_not] at member
    obtain ⟨e, there, rfl⟩ := List.mem_map.1 member.1
    rcases merges.others e there with known | ⟨new, d, candidate, text, below⟩
    · exact absurd known member.2
    · have dropped : d ∉ fresh := by
        intro kept
        exact new (List.mem_map.2 ⟨d, kept, text.trans (merges.key e there).symm⟩)
      rw [best] at dropped ⊢
      obtain ⟨worse, full⟩ := beyond_take_sortBy isBetter_iff candidate dropped
      exact ⟨fun f kept => (worse f kept).trans below, full⟩
  refine take_sortBy isBetter_iff ranks split ?_ ?_ ?_ ?_
  · rw [best]
    exact sorted.sublist (List.take_sublist _ _)
  · intro f kept x other
    exact (beyond x other).1 f kept
  · rw [best, List.length_take]
    exact Nat.min_le_left _ _
  · intro some_
    obtain ⟨x, other⟩ := List.exists_mem_of_ne_nil _ some_
    exact (beyond x other).2

end Merge

/-! ## Sessions -/

structure Call where
  raw : ByteString
  limits : Limits
  deriving DecidableEq

/-- A cache in use.  `storedWith` remembers the limits of the call that stored the
entry of an input; the cache itself does not keep them. -/
structure Session where
  cache : IncrementalRomanCache
  storedWith : ByteString → Limits

namespace Session

def start (maxEntries : Nat) : Session :=
  ⟨{ maxEntries := maxEntries }, fun _ => ⟨0, 0, 0⟩⟩

/-- One call of `GetOrGenerate`. -/
def call (rules : List RomanRule) (s : Session) (c : Call) : List Hypothesis × Session :=
  let answer := s.cache.getOrGenerate rules c.raw c.limits
  (answer.1,
    { cache := answer.2
      storedWith :=
        if (s.cache.entries.find c.raw).isSome then s.storedWith
        else Function.update s.storedWith c.raw c.limits })

def answers (rules : List RomanRule) : Session → List Call → List (List Hypothesis)
  | _, [] => []
  | s, c :: calls => (s.call rules c).1 :: answers rules (s.call rules c).2 calls

/-- A cached hypothesis may be extended: within the limits, an edit at a place of the
cached input gives the same text at least as well, so that the hypothesis does not
rest on a rule for whole inputs. -/
def Extensible (rules : List RomanRule) (limits : Limits) (cached : ByteString) (h : Hypothesis) :
    Prop :=
  limits.Searches ∧ ∃ g ∈ singleEdits (placeRules rules) cached,
    g.correctedRaw = h.correctedRaw ∧ isBetter h g = false ∧ g.editCost ≤ limits.maxEditCost

/-- A call that the cache answers well: a cached input was stored with the same
limits, and the hypotheses that are reused may be extended. -/
def Apt (rules : List RomanRule) (s : Session) (c : Call) : Prop :=
  match s.cache.entries.find c.raw with
  | some _ => s.storedWith c.raw = c.limits
  | none => ∀ cached, s.cache.longestPrefix c.raw = some cached → ∀ h ∈ cached.2,
      (reuse c.raw (c.raw.drop cached.1.length) cached.1.length h).isSome →
      c.limits.maxRawHypotheses ≠ 0 → Extensible rules c.limits cached.1 h

/-- All calls of a session are apt. -/
def AptCalls (rules : List RomanRule) : Session → List Call → Prop
  | _, [] => True
  | s, c :: calls => s.Apt rules c ∧ AptCalls rules (s.call rules c).2 calls

/-- What a user sees of a hypothesis: its text, its cost, and whether it is applied by itself. -/
def shown (h : Hypothesis) : ByteString × Int × Bool :=
  (h.correctedRaw, h.editCost, h.autoApplicable)

/-- The cache is invisible: every call returns what `Generate` returns. -/
def Transparent (rules : List RomanRule) (s : Session) (calls : List Call) : Prop :=
  (s.answers rules calls).map (List.map shown) =
    calls.map fun c => (generate rules c.raw c.limits).map shown

/-- Every entry is what `Generate` returned with the limits of the storing call. -/
def Valid (rules : List RomanRule) (s : Session) : Prop :=
  ∀ e ∈ s.cache.entries.elements, e.2 = generate rules e.1 (s.storedWith e.1)

end Session

section Sessions

variable {rules : List RomanRule}

theorem mem_store {cache : IncrementalRomanCache} {raw : ByteString}
    {hypotheses : List Hypothesis} {e : ByteString × List Hypothesis}
    (member : e ∈ (cache.store raw hypotheses).entries.elements) :
    e = (raw, hypotheses) ∨ e ∈ cache.entries.elements := by
  unfold IncrementalRomanCache.store at member
  split at member
  · exact .inr member
  · dsimp only at member
    have trimmed : ∀ n (m : SortedMap ByteString (List Hypothesis)),
        e ∈ (SortedMap.eraseFirst^[n] m).elements → e ∈ m.elements := by
      intro n
      induction n with
      | zero => exact fun _ => id
      | succ n ih => exact fun m kept => SortedMap.mem_of_mem_eraseFirst (ih _ kept)
    exact (SortedMap.mem_assign.1 (trimmed _ _ member)).imp_right And.left

theorem mem_of_maxElement {α : Type*} {less : α → α → Bool} {xs : List α} {x : α}
    (found : maxElement less xs = some x) : x ∈ xs := by
  cases xs with
  | nil => cases found
  | cons y ys =>
      have all : ∀ (zs : List α) (z : α), (zs.foldl (fun largest e =>
          if less largest e then e else largest) z) ∈ z :: zs := by
        intro zs
        induction zs with
        | nil => exact fun z => List.mem_singleton_self z
        | cons w zs ih =>
            intro z
            rw [List.foldl_cons]
            split
            · exact List.mem_cons_of_mem _ (ih w)
            · rcases List.mem_cons.1 (ih z) with same | later
              · exact List.mem_cons.2 (.inl same)
              · exact List.mem_cons_of_mem _ (List.mem_cons_of_mem _ later)
      rw [← Option.some_inj.1 found]
      exact all ys y

theorem longestPrefix_spec {cache : IncrementalRomanCache} {raw : ByteString}
    {cached : ByteString × List Hypothesis} (found : cache.longestPrefix raw = some cached) :
    cached ∈ cache.entries.elements ∧ cached.1 <+: raw ∧ cached.1.length ≠ raw.length := by
  unfold IncrementalRomanCache.longestPrefix at found
  split at found
  · cases found
  · rename_i longest largest
    split at found
    · cases found
    · rename_i proper
      obtain rfl : longest = cached := Option.some_inj.1 found
      rw [not_or, Bool.not_eq_true', Bool.not_eq_false, List.isPrefixOf_iff_prefix] at proper
      exact ⟨mem_of_maxElement largest, proper⟩

theorem isBetter_extend {a b : Hypothesis} (same : a.correctedRaw = b.correctedRaw)
    (raw suffix : ByteString) :
    isBetter (a.extend raw suffix) (b.extend raw suffix) = isBetter a b := by
  have generic : ∀ h : Hypothesis, isGeneric (h.extend raw suffix) = isGeneric h := fun _ => rfl
  unfold isBetter
  rw [generic, generic]
  simp [Hypothesis.extend, same]

/-- An extensible hypothesis becomes a covered one. -/
theorem covered_of_extensible {limits : Limits} {cached raw : ByteString} {h : Hypothesis}
    (isPrefix : cached <+: raw) (differs : h.correctedRaw ≠ cached)
    (extensible : Session.Extensible rules limits cached h) :
    Covered rules raw limits (h.extend raw (raw.drop cached.length)) := by
  obtain ⟨suffix, rfl⟩ := isPrefix
  rw [List.drop_left]
  obtain ⟨searches, g, edit, text, noWorse, cost⟩ := extensible
  have offered := extend_mem_singleEdits suffix edit
  have accepted : isCandidate (cached ++ suffix) limits
      (g.extend (cached ++ suffix) suffix) = true := by
    have one := edits_length_of_mem_singleEdits offered
    have changed : g.correctedRaw ++ suffix ≠ cached ++ suffix := fun same =>
      differs (text ▸ List.append_cancel_right same)
    have some_ : (g.extend (cached ++ suffix) suffix).edits ≠ [] := by
      intro none
      rw [none] at one
      cases one
    unfold isCandidate
    rw [Bool.not_eq_true', decide_eq_false_iff_not, not_or, not_or, not_or, one, searches.1]
    exact ⟨changed, some_, lt_irrefl _, not_lt.2 cost⟩
  obtain ⟨d, candidate, same, below⟩ :=
    (candidatesOf_selects rules (cached ++ suffix) limits).covers _ offered accepted
  refine ⟨d, candidate, same.trans (congrArg (· ++ suffix) text), below.trans ?_⟩
  rw [← not_better_iff isBetter_iff, isBetter_extend text.symm]
  exact noWorse

theorem eq_extend_of_reuse {raw suffix : ByteString} {size : Nat} {h r : Hypothesis}
    (reused : reuse raw suffix size h = some r) : r = h.extend raw suffix := by
  unfold reuse at reused
  split at reused
  · cases reused
  · split at reused
    · cases reused
    · split at reused
      · cases reused
      · exact (Option.some_inj.1 reused).symm

/-- Without room for hypotheses nothing is returned. -/
theorem generate_of_no_room {raw : ByteString} {limits : Limits}
    (room : limits.maxRawHypotheses = 0) : generate rules raw limits = [] := by
  unfold generate
  rw [if_pos (by simp [room])]

/-- Reused hypotheses that may be extended disappear in the merge. -/
theorem merge_of_extensible {s : Session} {c : Call} (valid : s.Valid rules)
    (miss : s.cache.entries.find c.raw = none) (apt : s.Apt rules c) {reused : List Hypothesis}
    (found : s.cache.findPrefixReuse c.raw c.limits = some reused) :
    mergeHypotheses (generate rules c.raw c.limits) reused c.limits =
      generate rules c.raw c.limits := by
  by_cases room : c.limits.maxRawHypotheses = 0
  · rw [generate_of_no_room room, mergeHypotheses, room]
    exact List.take_zero
  unfold IncrementalRomanCache.findPrefixReuse at found
  rw [miss] at found
  dsimp only at found
  split at found
  · cases found
  · rename_i cached longest
    obtain ⟨known, isPrefix, proper⟩ := longestPrefix_spec longest
    unfold Session.Apt at apt
    rw [miss] at apt
    split at found
    · cases found
    · rename_i some_
      have extensible : ∀ r ∈ cached.2.filterMap (reuse c.raw (c.raw.drop cached.1.length)
          cached.1.length), ∃ h ∈ cached.2, r = h.extend c.raw (c.raw.drop cached.1.length) ∧
            Session.Extensible rules c.limits cached.1 h := by
        intro r member
        obtain ⟨h, old, reused⟩ := List.mem_filterMap.1 member
        exact ⟨h, old, eq_extend_of_reuse reused,
          apt cached longest h old (by rw [reused]; rfl) room⟩
      obtain ⟨r, member⟩ := List.exists_mem_of_ne_nil _ some_
      obtain ⟨-, -, -, searches, -⟩ := extensible r member
      have nonempty : c.raw ≠ [] := by
        intro none
        rw [none, List.prefix_nil] at isPrefix
        rw [none, isPrefix] at proper
        exact proper rfl
      refine mergeHypotheses_eq_fresh nonempty searches ?_
      intro r member
      rw [← Option.some_inj.1 found] at member
      obtain ⟨h, old, rfl, may⟩ :=
        extensible r ((sortBy_perm _ _).subset (List.mem_of_mem_take member))
      refine covered_of_extensible isPrefix ?_ may
      have generated := valid cached known
      rw [generated] at old
      have accepted :=
        ((candidatesOf_selects rules _ _).mem h (mem_candidatesOf_of_mem_generate old).2.2).2
      unfold isCandidate at accepted
      rw [Bool.not_eq_true', decide_eq_false_iff_not, not_or] at accepted
      exact accepted.1

/-- An apt call returns what `Generate` returns. -/
theorem apt_call {s : Session} {c : Call} (valid : s.Valid rules) (apt : s.Apt rules c) :
    (s.call rules c).1 = generate rules c.raw c.limits := by
  unfold Session.call IncrementalRomanCache.getOrGenerate
  cases hit : s.cache.entries.find c.raw with
  | some cached =>
      unfold Session.Apt at apt
      rw [hit] at apt
      rw [← apt]
      exact valid _ (SortedMap.mem_of_find hit)
  | none =>
      dsimp only
      cases found : s.cache.findPrefixReuse c.raw c.limits with
      | none => rfl
      | some reused => exact merge_of_extensible valid hit apt found

/-- A call for an input that is not cached stores its answer. -/
theorem mem_entries_of_miss {cache : IncrementalRomanCache} {raw : ByteString} {limits : Limits}
    (miss : cache.entries.find raw = none) {e : ByteString × List Hypothesis}
    (member : e ∈ (cache.getOrGenerate rules raw limits).2.entries.elements) :
    e = (raw, (cache.getOrGenerate rules raw limits).1) ∨ e ∈ cache.entries.elements := by
  unfold IncrementalRomanCache.getOrGenerate at member ⊢
  rw [miss] at member ⊢
  dsimp only at member ⊢
  split at member
  · have stored := mem_store member
    exact stored
  · have stored := mem_store member
    exact stored

/-- An apt call keeps the entries right. -/
theorem valid_call {s : Session} {c : Call} (valid : s.Valid rules) (apt : s.Apt rules c) :
    (s.call rules c).2.Valid rules := by
  have answer := apt_call valid apt
  intro e member
  unfold Session.call at answer member ⊢
  cases hit : s.cache.entries.find c.raw with
  | some cached =>
      rw [IncrementalRomanCache.getOrGenerate, hit] at member
      exact valid e member
  | none =>
      rcases mem_entries_of_miss hit member with rfl | old
      · simpa using answer
      · have differs : e.1 ≠ c.raw := SortedMap.find_eq_none.1 hit e old
        simpa [differs] using valid e old

/-- **The cache is invisible as long as the calls are apt.** -/
theorem transparent_of_apt (rules : List RomanRule) (maxEntries : Nat) (calls : List Call)
    (apt : (Session.start maxEntries).AptCalls rules calls) :
    (Session.start maxEntries).Transparent rules calls := by
  have start : (Session.start maxEntries).Valid rules := by
    intro e member
    exact absurd member List.not_mem_nil
  generalize Session.start maxEntries = s at apt start
  unfold Session.Transparent
  induction calls generalizing s with
  | nil => rfl
  | cons c calls ih =>
      rw [Session.answers, List.map_cons, List.map_cons, apt_call start apt.1,
        ih _ apt.2 (valid_call start apt.1)]

/-! ## Reuse in action -/

/-- A rule for a place of the input. -/
def placeRule : RomanRule := { wrong := ascii "ia", corrected := ascii "ai", cost := 50 }

/-- A rule for a whole input. -/
def wholeRule : RomanRule where
  wrong := ascii "onegia"
  corrected := ascii "onegai"
  operation := .adjacentTranspose
  cost := 100
  autoApplicable := true
  wholeInputOnly := true
  ruleId := ascii "R000001"

/-- Room for one hypothesis. -/
def oneResult : Limits := ⟨1, 1, 120⟩

/-- The hypothesis of the place rule for `ia` is reused for `iam`, and `ia` is then
answered from the cache. -/
theorem place_reuse_transparent : (Session.start 32).Transparent [placeRule]
    [⟨ascii "ia", oneResult⟩, ⟨ascii "iam", oneResult⟩, ⟨ascii "ia", oneResult⟩] := by
  refine transparent_of_apt [placeRule] 32 _ ⟨?_, ?_, ?_, trivial⟩
  · intro cached none
    cases none
  · intro cached longest h old _ _
    have known : cached = (ascii "ia", generate [placeRule] (ascii "ia") oneResult) :=
      (Option.some_inj.1 (longest.symm.trans (by decide)))
    subst known
    have one : h = makeHypothesis (ascii "ia") 0 2 (ascii "ai") .literalReplacement 50 false [] := by
      revert h
      decide
    subst one
    exact ⟨⟨rfl, by decide⟩, _, by decide, rfl, by decide, by decide⟩
  · rfl

/-- **A call sees another call's hypothesis.**  After `onegia` the cache answers
`onegiam` with the extension of the rule for the whole input `onegia`, which
`Generate` does not return. -/
theorem whole_reuse_not_transparent : ¬ (Session.start 32).Transparent [wholeRule]
    [⟨ascii "onegia", oneResult⟩, ⟨ascii "onegiam", oneResult⟩] := by
  unfold Session.Transparent
  decide +kernel

end Sessions

end Mozkey.TypingCorrection
