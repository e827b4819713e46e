import Mathlib

/-!
# Cheapest paths

A path starts at the start node and goes along edges.  Whether an edge may be taken can
depend on the cost so far, as where paths that cost too much are given up; a lower cost
never forbids what a higher cost allows.

The cheapest path to a node is the cheapest path to one of the nodes in front of it, and
an edge.  A loop that looks for the first smallest of some costs below a limit finds this
node.
-/

namespace Mozkey.Lib

/-! ## The first smallest cost -/

section Select

variable {α : Type*}

/-- A loop that keeps the first smallest cost below the one it starts with.  Elements
without a cost are skipped. -/
def selectLeast (cost : α → Option Int) : List α → Int × Option α → Int × Option α
  | [], best => best
  | x :: xs, best =>
      match cost x with
      | none => selectLeast cost xs best
      | some c => selectLeast cost xs (if c < best.1 then (c, some x) else best)

theorem selectLeast_congr {cost cost' : α → Option Int} {xs : List α}
    (same : ∀ x ∈ xs, cost' x = cost x) (best : Int × Option α) :
    selectLeast cost' xs best = selectLeast cost xs best := by
  induction xs generalizing best with
  | nil => rfl
  | cons x xs ih =>
      have ihAll := ih fun y member => same y (List.mem_cons_of_mem x member)
      rw [selectLeast, selectLeast, same x (List.mem_cons_self ..)]
      cases cost x with
      | none => exact ihAll best
      | some c => exact ihAll _

/-- What a selection is: the start when no cost is lower, or else a smallest cost. -/
structure Selected (cost : α → Option Int) (xs : List α) (start : Int × Option α)
    (best : Int × Option α) : Prop where
  least : ∀ x ∈ xs, ∀ c, cost x = some c → best.1 ≤ c
  le : best.1 ≤ start.1
  found : best = start ∨ ∃ x ∈ xs, cost x = some best.1 ∧ best.2 = some x ∧ best.1 < start.1

theorem selectLeast_selected (cost : α → Option Int) (xs : List α) (start : Int × Option α) :
    Selected cost xs start (selectLeast cost xs start) := by
  induction xs generalizing start with
  | nil => exact ⟨by simp, le_rfl, .inl rfl⟩
  | cons x xs ih =>
      rw [selectLeast]
      cases isCost : cost x with
      | none =>
          obtain ⟨least, le, found⟩ := ih start
          refine ⟨List.forall_mem_cons.2 ⟨fun c isSome => ?_, least⟩, le, ?_⟩
          · cases isCost.symm.trans isSome
          · refine found.imp_right ?_
            rintro ⟨y, member, rest⟩
            exact ⟨y, List.mem_cons_of_mem x member, rest⟩
      | some c =>
          dsimp only
          split
          · next less =>
              obtain ⟨least, le, found⟩ := ih (c, some x)
              refine ⟨List.forall_mem_cons.2 ⟨fun c' isSome => ?_, least⟩, le.trans less.le, .inr ?_⟩
              · obtain rfl := Option.some.inj (isCost.symm.trans isSome)
                exact le
              · rcases found with same | ⟨y, member, isY, chosen, lessY⟩
                · rw [same]
                  exact ⟨x, List.mem_cons_self .., isCost, rfl, less⟩
                · exact ⟨y, List.mem_cons_of_mem x member, isY, chosen, lessY.trans less⟩
          · next notLess =>
              obtain ⟨least, le, found⟩ := ih start
              refine ⟨List.forall_mem_cons.2 ⟨fun c' isSome => ?_, least⟩, le, ?_⟩
              · obtain rfl := Option.some.inj (isCost.symm.trans isSome)
                exact le.trans (not_lt.1 notLess)
              · refine found.imp_right ?_
                rintro ⟨y, member, rest⟩
                exact ⟨y, List.mem_cons_of_mem x member, rest⟩

theorem Selected.congr {cost cost' : α → Option Int} {xs : List α} {start best : Int × Option α}
    (selected : Selected cost xs start best) (same : ∀ x ∈ xs, cost' x = cost x) :
    Selected cost' xs start best := by
  refine ⟨fun x member c isCost => ?_, selected.le, selected.found.imp_right ?_⟩
  · exact selected.least x member c ((same x member).symm.trans isCost)
  · rintro ⟨x, member, isCost, rest⟩
    exact ⟨x, member, (same x member).trans isCost, rest⟩

/-- Elements can be left out of a selection for others that cost no more. -/
theorem Selected.of_subset {cost : α → Option Int} {xs ys : List α} {start best : Int × Option α}
    (selected : Selected cost ys start best) (subset : ys ⊆ xs)
    (below : ∀ x ∈ xs, ∀ c, cost x = some c → ∃ y ∈ ys, ∃ c', cost y = some c' ∧ c' ≤ c) :
    Selected cost xs start best := by
  refine ⟨fun x member c isCost => ?_, selected.le, selected.found.imp_right ?_⟩
  · obtain ⟨y, inside, c', isCost', le⟩ := below x member c isCost
    exact (selected.least y inside c' isCost').trans le
  · rintro ⟨y, inside, rest⟩
    exact ⟨y, subset inside, rest⟩

end Select

/-! ## Paths and their costs -/

section Paths

variable {α : Type*}

/-- A graph with costs, in which a path may not take every edge. -/
structure CostGraph (α : Type*) where
  start : α
  weight : α → α → Int
  /-- The edge may be taken by a path of some cost. -/
  guard : α → α → Int → Prop
  downward : ∀ {l r c c'}, c' ≤ c → guard l r c → guard l r c'
  fresh : ∀ l c, ¬guard l start c

namespace CostGraph

variable (g : CostGraph α)

/-- A path, the node it leads to, and its cost. -/
inductive PathTo : List α → α → Int → Prop
  | start : PathTo [g.start] g.start 0
  | step {path l r c} : PathTo path l c → g.guard l r c → PathTo (path ++ [r]) r (c + g.weight l r)

/-- The costs of the paths to a node. -/
def Costs (x : α) : Set Int := {c | ∃ path, g.PathTo path x c}

variable {g}

theorem costs_start : IsLeast (g.Costs g.start) 0 := by
  refine ⟨⟨_, .start⟩, ?_⟩
  rintro c ⟨path, isPath⟩
  generalize isStart : g.start = x at isPath
  cases isPath with
  | start => exact le_rfl
  | step _ guard => exact absurd guard (isStart ▸ g.fresh _ _)

/-- A node in front of a node, on a path to it. -/
theorem exists_left {r : α} {c : Int} (notStart : r ≠ g.start) (isCost : c ∈ g.Costs r) :
    ∃ l c', c' ∈ g.Costs l ∧ g.guard l r c' ∧ c = c' + g.weight l r := by
  obtain ⟨path, isPath⟩ := isCost
  cases isPath with
  | start => exact absurd rfl notStart
  | step front guard => exact ⟨_, _, ⟨_, front⟩, guard, rfl⟩

/-- What is known of a node in front: its least cost, or that no path leads to it. -/
def Known (g : CostGraph α) (x : α) : Option Int → Prop
  | none => g.Costs x = ∅
  | some c => IsLeast (g.Costs x) c

theorem Known.unique {x : α} {best best' : Option Int} (known : g.Known x best)
    (known' : g.Known x best') : best = best' := by
  cases best with
  | none =>
      cases best' with
      | none => rfl
      | some c => exact absurd known'.1 (Set.eq_empty_iff_forall_notMem.1 known c)
  | some c =>
      cases best' with
      | none => exact absurd known.1 (Set.eq_empty_iff_forall_notMem.1 known' c)
      | some c' => rw [IsLeast.unique known known']

/-- **The least cost of a node, from those of the nodes in front of it.** -/
theorem isLeast_of_left {r : α} (notStart : r ≠ g.start) {best : α → Option Int}
    (known : ∀ l c, g.guard l r c → g.Known l (best l)) {l : α} {c : Int} (bestLeft : best l = some c)
    (guard : g.guard l r c)
    (least : ∀ l' c', best l' = some c' → g.guard l' r c' → c + g.weight l r ≤ c' + g.weight l' r) :
    IsLeast (g.Costs r) (c + g.weight l r) := by
  have knownLeft := known l c guard
  rw [bestLeft] at knownLeft
  obtain ⟨path, isPath⟩ := knownLeft.1
  refine ⟨⟨_, .step isPath guard⟩, fun cost isCost => ?_⟩
  obtain ⟨l', c', isCost', guard', rfl⟩ := exists_left notStart isCost
  have knownLeft' := known l' c' guard'
  cases bestLeft' : best l' with
  | none =>
      rw [bestLeft'] at knownLeft'
      exact absurd isCost' (knownLeft' ▸ Set.notMem_empty c')
  | some d =>
      rw [bestLeft'] at knownLeft'
      have below := knownLeft'.2 isCost'
      have bound := least l' d bestLeft' (g.downward below guard')
      omega

/-- No path leads to a node when none of the nodes in front of it can be left for it. -/
theorem costs_eq_empty {r : α} (notStart : r ≠ g.start) {best : α → Option Int}
    (known : ∀ l c, g.guard l r c → g.Known l (best l))
    (none : ∀ l c, best l = some c → ¬g.guard l r c) : g.Costs r = ∅ := by
  refine Set.eq_empty_of_forall_notMem fun cost isCost => ?_
  obtain ⟨l, c, isCostLeft, guard, rfl⟩ := exists_left notStart isCost
  have knownLeft := known l c guard
  cases bestLeft : best l with
  | none =>
      rw [bestLeft] at knownLeft
      exact absurd isCostLeft (knownLeft ▸ Set.notMem_empty c)
  | some d =>
      rw [bestLeft] at knownLeft
      exact none l d bestLeft (g.downward (knownLeft.2 isCostLeft) guard)

/-! ## Paths as lists -/

/-- Ranks increase along a chain, so that it has no node twice and is not longer than the
ranks allow. -/
theorem isChain_increasing {R : α → α → Prop} {rank : α → Nat}
    (increases : ∀ l r, R l r → rank l < rank r) {front : List α} {x : α}
    (chain : (front ++ [x]).IsChain R) :
    (front ++ [x]).Nodup ∧ (front ++ [x]).length ≤ rank x + 1 ∧ ∀ y ∈ front, rank y < rank x := by
  induction front using List.reverseRecOn generalizing x with
  | nil => exact ⟨List.nodup_singleton _, Nat.le_add_left .., by simp⟩
  | append_singleton front l ih =>
      rw [List.append_assoc] at chain
      obtain ⟨chainFront, step, _⟩ := List.isChain_append_cons_cons.1 chain
      obtain ⟨nodup, length, below⟩ := ih chainFront
      have less := increases l x step
      have belowAll : ∀ y ∈ front ++ [l], rank y < rank x := by
        intro y member
        rcases List.mem_append.1 member with before | last
        · exact (below y before).trans less
        · rwa [List.mem_singleton.1 last]
      refine ⟨?_, ?_, belowAll⟩
      · refine List.nodup_append.2 ⟨nodup, List.nodup_singleton _, fun y before z last => ?_⟩
        rintro rfl
        obtain rfl := List.mem_singleton.1 last
        exact absurd (belowAll _ before) (Nat.lt_irrefl _)
      · rw [List.length_append, List.length_singleton]
        omega

/-- The cost of a list of nodes. -/
def chainCost (weight : α → α → Int) : List α → Int
  | l :: r :: rest => weight l r + chainCost weight (r :: rest)
  | _ => 0

theorem chainCost_concat (weight : α → α → Int) (front : List α) (l r : α) :
    chainCost weight (front ++ [l, r]) = chainCost weight (front ++ [l]) + weight l r := by
  induction front with
  | nil =>
      show weight l r + 0 = 0 + weight l r
      omega
  | cons x front ih =>
      cases front with
      | nil =>
          show weight x l + (weight l r + 0) = weight x l + 0 + weight l r
          omega
      | cons y front =>
          show weight x y + chainCost weight (y :: (front ++ [l, r]))
            = weight x y + chainCost weight (y :: (front ++ [l])) + weight l r
          rw [← List.cons_append, ih, ← List.cons_append]
          omega

theorem abs_chainCost_le {weight : α → α → Int} {bound : Int} (nonneg : 0 ≤ bound)
    (weights : ∀ l r, |weight l r| ≤ bound) (path : List α) :
    |chainCost weight path| ≤ bound * path.length := by
  induction path with
  | nil =>
      show |(0 : Int)| ≤ bound * 0
      simp
  | cons l path ih =>
      rw [List.length_cons, Nat.cast_succ, Int.mul_add, Int.mul_one]
      cases path with
      | nil =>
          show |(0 : Int)| ≤ bound * 0 + bound
          simpa using nonneg
      | cons r path =>
          have step : |weight l r + chainCost weight (r :: path)|
              ≤ |weight l r| + |chainCost weight (r :: path)| := abs_add_le _ _
          have := weights l r
          show |weight l r + chainCost weight (r :: path)| ≤ _
          omega

/-- Two nodes with an edge that some path may take. -/
def Edge (g : CostGraph α) (l r : α) : Prop := ∃ c, g.guard l r c

theorem PathTo.exists_front {path : List α} {x : α} {c : Int} (isPath : g.PathTo path x c) :
    ∃ front, path = front ++ [x] := by
  cases isPath with
  | start => exact ⟨[], rfl⟩
  | step => exact ⟨_, rfl⟩

/-- What a path is, as a list. -/
theorem PathTo.isChain {path : List α} {x : α} {c : Int} (isPath : g.PathTo path x c) :
    path.head? = some g.start ∧ path.IsChain g.Edge ∧ c = chainCost g.weight path := by
  induction isPath with
  | start => exact ⟨rfl, .singleton _, rfl⟩
  | step front guard ih =>
      obtain ⟨head, chain, cost⟩ := ih
      obtain ⟨front', rfl⟩ := front.exists_front
      refine ⟨?_, ?_, ?_⟩
      · rw [List.head?_append, head]
        rfl
      · rw [List.isChain_append]
        refine ⟨chain, .singleton _, fun y isLast z isHead => ?_⟩
        rw [List.getLast?_concat, Option.mem_some_iff] at isLast
        rw [List.head?_cons, Option.mem_some_iff] at isHead
        rw [← isLast, ← isHead]
        exact ⟨_, guard⟩
      · rw [List.append_assoc, cost]
        exact (chainCost_concat ..).symm

/-- A list whose edges may be taken at the costs so far is a path. -/
theorem pathTo_of_list {path : List α} {x : α} (head : (path ++ [x]).head? = some g.start)
    (guards : ∀ front l r back, path ++ [x] = front ++ l :: r :: back →
      g.guard l r (chainCost g.weight (front ++ [l]))) :
    g.PathTo (path ++ [x]) x (chainCost g.weight (path ++ [x])) := by
  induction path using List.reverseRecOn generalizing x with
  | nil =>
      obtain rfl : x = g.start := Option.some.inj head
      exact .start
  | append_singleton path l ih =>
      have front := ih (x := l) (by
          rw [← head, List.head?_append (l := path ++ [l])]
          cases path <;> rfl) fun front l' r back split =>
        guards front l' r (back ++ [x]) (by rw [split]; simp)
      have guard := guards path l x [] (by simp)
      have step := PathTo.step front guard
      rw [List.append_assoc] at step ⊢
      exact chainCost_concat g.weight path l x ▸ step

end CostGraph

end Paths

end Mozkey.Lib
