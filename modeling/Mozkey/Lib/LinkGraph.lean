import Mathlib

/-!
# Paths that spell a target, and cutting them

A graph gives every node a label and a list of links.  A path spells a target when
its labels, stripped from the target one after another, leave it finished.  The
spelling paths from a node come in the order of a depth-first search along the
links.

Cutting a link takes away the paths over that link and keeps the order of the
others.  A search that starts at every node in turn and cuts the last link of the
first path it finds therefore leaves the paths that avoid the cut links: which
links these are is told by the paths of the uncut graph.
-/

namespace Mozkey.Lib

/-- Every node of the graph has a label and links to other nodes. -/
abbrev LinkGraph (ν Λ : Type*) := ν → Option (Λ × List ν)

variable {ν Λ τ : Type*}

/-! ## Links of a path -/

/-- The links a path goes along. -/
def links (path : List ν) : List (ν × ν) := path.zip path.tail

def lastLink (path : List ν) : Option (ν × ν) := (links path).getLast?

@[simp] theorem links_singleton (n : ν) : links [n] = [] := rfl

@[simp] theorem links_cons_cons (n m : ν) (path : List ν) :
    links (n :: m :: path) = (n, m) :: links (m :: path) := rfl

@[simp] theorem lastLink_pair (n m : ν) : lastLink [n, m] = some (n, m) := rfl

theorem lastLink_cons_cons_cons (n m k : ν) (path : List ν) :
    lastLink (n :: m :: k :: path) = lastLink (m :: k :: path) := by
  rw [lastLink, links_cons_cons, links_cons_cons, List.getLast?_cons_cons]
  rfl

theorem exists_lastLink {path : List ν} (long : 2 ≤ path.length) :
    ∃ link, lastLink path = some link ∧ link ∈ links path := by
  match path, long with
  | n :: m :: rest, _ =>
      have nonempty : links (n :: m :: rest) ≠ [] := List.cons_ne_nil _ _
      exact ⟨_, List.getLast?_eq_some_getLast nonempty, List.getLast_mem nonempty⟩

/-! ## Cut links -/

/-- No link of the path is cut. -/
def Uncut (cuts : List (ν × ν)) (path : List ν) : Prop := ∀ link ∈ links path, link ∉ cuts

instance [DecidableEq ν] (cuts : List (ν × ν)) : DecidablePred (Uncut cuts) := fun _ =>
  inferInstanceAs (Decidable (∀ _ ∈ _, _))

@[simp] theorem uncut_singleton (cuts : List (ν × ν)) (n : ν) : Uncut cuts [n] := by
  intro link member
  exact absurd member List.not_mem_nil

@[simp] theorem uncut_nil (path : List ν) : Uncut [] path := by
  intro link _
  exact List.not_mem_nil

theorem uncut_cons_cons {cuts : List (ν × ν)} {n m : ν} {path : List ν} :
    Uncut cuts (n :: m :: path) ↔ (n, m) ∉ cuts ∧ Uncut cuts (m :: path) := by
  rw [Uncut, links_cons_cons, List.forall_mem_cons]
  rfl

theorem uncut_cons_cuts {link : ν × ν} {cuts : List (ν × ν)} {path : List ν} :
    Uncut (link :: cuts) path ↔ Uncut [link] path ∧ Uncut cuts path := by
  simp only [Uncut, List.mem_cons, not_or, List.not_mem_nil, not_false_eq_true, and_true]
  exact forall₂_and

/-- The graph without a link. -/
def LinkGraph.cut [DecidableEq ν] (g : LinkGraph ν Λ) (link : ν × ν) : LinkGraph ν Λ := fun n =>
  (g n).map fun node => (node.1, if n = link.1 then node.2.filter (· ≠ link.2) else node.2)

/-! ## Spelling -/

section Spelling

variable [DecidableEq τ] (strip : Λ → τ → Option τ) (finished : τ)

/-- The paths from a node that spell the target, in the order of the links.  The
fuel bounds the length of the paths. -/
def spellings (g : LinkGraph ν Λ) : Nat → ν → τ → List (List ν)
  | 0, _, _ => []
  | fuel + 1, n, target =>
      match g n with
      | none => []
      | some (label, nexts) =>
          match strip label target with
          | none => []
          | some rest =>
              if rest = finished then [[n]]
              else nexts.flatMap fun m => (spellings g fuel m rest).map (n :: ·)

variable {strip finished}

/-- A path of linked nodes whose labels, one after another, leave the target
finished. -/
inductive Spells (strip : Λ → τ → Option τ) (finished : τ) (g : LinkGraph ν Λ) :
    List ν → τ → Prop
  | last {n : ν} {label : Λ} {nexts : List ν} {target : τ} (node : g n = some (label, nexts))
      (spelled : strip label target = some finished) : Spells strip finished g [n] target
  | link {n m : ν} {label : Λ} {nexts path : List ν} {target rest : τ}
      (node : g n = some (label, nexts)) (linked : m ∈ nexts)
      (spelled : strip label target = some rest)
      (behind : Spells strip finished g (m :: path) rest) :
      Spells strip finished g (n :: m :: path) target

theorem exists_tail_of_mem_spellings {g : LinkGraph ν Λ} {fuel : Nat} {n : ν} {target : τ}
    {path : List ν} (member : path ∈ spellings strip finished g fuel n target) :
    ∃ tail, path = n :: tail := by
  cases fuel with
  | zero => exact absurd member List.not_mem_nil
  | succ fuel =>
      rw [spellings] at member
      split at member
      · exact absurd member List.not_mem_nil
      · split at member
        · exact absurd member List.not_mem_nil
        · split at member
          · exact ⟨[], List.mem_singleton.1 member⟩
          · obtain ⟨m, -, inside⟩ := List.mem_flatMap.1 member
            obtain ⟨tail, -, rfl⟩ := List.mem_map.1 inside
            exact ⟨tail, rfl⟩

/-- Either the node alone spells the target, or every path goes on. -/
theorem spellings_eq_singleton_or_long (g : LinkGraph ν Λ) (fuel : Nat) (n : ν) (target : τ) :
    spellings strip finished g fuel n target = [[n]] ∨
      ∀ path ∈ spellings strip finished g fuel n target, 2 ≤ path.length := by
  cases fuel with
  | zero => exact .inr fun path member => absurd member List.not_mem_nil
  | succ fuel =>
      rw [spellings]
      split
      · exact .inr fun path member => absurd member List.not_mem_nil
      · split
        · exact .inr fun path member => absurd member List.not_mem_nil
        · split
          · exact .inl rfl
          · refine .inr fun path member => ?_
            obtain ⟨m, -, inside⟩ := List.mem_flatMap.1 member
            obtain ⟨inner, behind, rfl⟩ := List.mem_map.1 inside
            obtain ⟨tail, rfl⟩ := exists_tail_of_mem_spellings behind
            simp

theorem spells_of_mem_spellings {g : LinkGraph ν Λ} {fuel : Nat} {n : ν} {target : τ}
    {path : List ν} (member : path ∈ spellings strip finished g fuel n target) :
    Spells strip finished g path target := by
  induction fuel generalizing n target path with
  | zero => exact absurd member List.not_mem_nil
  | succ fuel ih =>
      rw [spellings] at member
      split at member
      · exact absurd member List.not_mem_nil
      · rename_i node
        split at member
        · exact absurd member List.not_mem_nil
        · rename_i rest spelled
          split at member
          · rename_i isFinished
            rw [List.mem_singleton.1 member]
            exact .last node (isFinished ▸ spelled)
          · obtain ⟨m, linked, inside⟩ := List.mem_flatMap.1 member
            obtain ⟨inner, behind, rfl⟩ := List.mem_map.1 inside
            obtain ⟨tail, rfl⟩ := exists_tail_of_mem_spellings behind
            exact .link node linked spelled (ih behind)

/-- Every label takes something away from the target. -/
def LinkGraph.Progress (strip : Λ → τ → Option τ) (size : τ → Nat) (g : LinkGraph ν Λ) : Prop :=
  ∀ ⦃n label nexts⦄, g n = some (label, nexts) →
    ∀ ⦃target rest⦄, strip label target = some rest → size rest < size target

/-- **The enumeration is complete.** -/
theorem mem_spellings_of_spells {g : LinkGraph ν Λ} {size : τ → Nat}
    (progress : g.Progress strip size) (empty : size finished = 0) {fuel : Nat} {n : ν}
    {tail : List ν} {target : τ} (enough : size target ≤ fuel)
    (spells : Spells strip finished g (n :: tail) target) :
    n :: tail ∈ spellings strip finished g fuel n target := by
  induction fuel generalizing n tail target with
  | zero =>
      -- a target of size 0 has no label to strip
      cases spells with
      | last node spelled => exact absurd (progress node spelled) (by omega)
      | link node linked spelled behind => exact absurd (progress node spelled) (by omega)
  | succ fuel ih =>
      cases spells with
      | last node spelled =>
          rw [spellings, node]
          dsimp only
          rw [spelled]
          dsimp only
          rw [if_pos rfl]
          exact List.mem_singleton_self _
      | link node linked spelled behind =>
          rename_i m label nexts path rest
          have smaller := progress node spelled
          have unfinished : rest ≠ finished := by
            intro isFinished
            cases behind with
            | last node spelled => exact absurd (progress node spelled) (by rw [isFinished]; omega)
            | link node linked spelled behind =>
                exact absurd (progress node spelled) (by rw [isFinished]; omega)
          rw [spellings, node]
          dsimp only
          rw [spelled]
          dsimp only
          rw [if_neg unfinished]
          exact List.mem_flatMap_of_mem linked
            (List.mem_map_of_mem (ih (by omega) behind))

variable [DecidableEq ν]

/-- The paths behind one link: those that avoid the cut link, if the link itself is
not the cut one. -/
theorem filter_uncut_map_cons {link : ν × ν} {n m : ν} {paths : List (List ν)}
    (heads : ∀ path ∈ paths, ∃ tail, path = m :: tail) :
    (paths.map (n :: ·)).filter (fun path => Uncut [link] path)
      = if (n, m) = link then [] else (paths.filter fun path => Uncut [link] path).map (n :: ·) := by
  have split_link : ∀ path ∈ paths,
      (Uncut [link] (n :: path) ↔ (n, m) ≠ link ∧ Uncut [link] path) := by
    intro path member
    obtain ⟨tail, rfl⟩ := heads path member
    rw [uncut_cons_cons, List.mem_singleton]
  split
  · rename_i same
    rw [List.filter_eq_nil_iff]
    intro path member
    obtain ⟨inner, inside, rfl⟩ := List.mem_map.1 member
    rw [decide_eq_true_iff, split_link inner inside]
    exact fun both => both.1 same
  · rename_i ne
    rw [List.filter_map]
    refine congrArg (List.map _) (List.filter_congr fun path member => ?_)
    exact decide_eq_decide.2 ((split_link path member).trans (and_iff_right ne))

/-- **A cut takes away the paths over the link.** -/
theorem spellings_cut (g : LinkGraph ν Λ) (link : ν × ν) (fuel : Nat) (n : ν) (target : τ) :
    spellings strip finished (g.cut link) fuel n target
      = (spellings strip finished g fuel n target).filter fun path => Uncut [link] path := by
  induction fuel generalizing n target with
  | zero => rfl
  | succ fuel ih =>
      rw [spellings, spellings, LinkGraph.cut]
      cases g n with
      | none => rfl
      | some node =>
          obtain ⟨label, nexts⟩ := node
          rw [Option.map_some]
          dsimp only
          cases strip label target with
          | none => rfl
          | some rest =>
              dsimp only
              by_cases isFinished : rest = finished
              · rw [if_pos isFinished, if_pos isFinished]
                simp
              · rw [if_neg isFinished, if_neg isFinished, List.filter_flatMap]
                have behind : ∀ m, (((spellings strip finished g fuel m rest).map (n :: ·)).filter
                    fun path => Uncut [link] path) = if (n, m) = link then [] else
                      (spellings strip finished (g.cut link) fuel m rest).map (n :: ·) := by
                  intro m
                  rw [filter_uncut_map_cons fun _ => exists_tail_of_mem_spellings, ih]
                simp only [behind]
                by_cases owner : n = link.1
                · rw [if_pos owner]
                  induction nexts with
                  | nil => rfl
                  | cons m nexts later =>
                      by_cases cut : m = link.2
                      · rw [List.flatMap_cons, if_pos (Prod.ext owner cut), List.nil_append,
                          ← later, List.filter_cons_of_neg (by simp [cut])]
                      · have kept : (n, m) ≠ link := fun same => cut (congrArg Prod.snd same)
                        rw [List.flatMap_cons, if_neg kept, ← later,
                          List.filter_cons_of_pos (by simp [cut]), List.flatMap_cons]
                · rw [if_neg owner]
                  refine List.flatMap_congr fun m _ => ?_
                  rw [if_neg fun same => owner (congrArg Prod.fst same)]

end Spelling

/-! ## Cutting the first path of every node -/

section Greedy

variable [DecidableEq ν] (pathsFrom : ν → List (List ν))

/-- The last link of the first path from the node that is not yet cut is cut. -/
def cutNext (cuts : List (ν × ν)) (n : ν) : List (ν × ν) :=
  (((pathsFrom n).find? fun path => Uncut cuts path).bind lastLink).toList ++ cuts

/-- The links cut by going through the nodes in turn. -/
def greedyCuts (starts : List ν) : List (ν × ν) := starts.foldl (cutNext pathsFrom) []

end Greedy

end Mozkey.Lib
