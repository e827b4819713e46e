import Mathlib

/-!
# Lists of linked nodes

Nodes that lead to one another form a list.  A list is doubly linked when the links in one
direction lead through its nodes and the links in the other direction lead through them in
reverse.  Cutting a node out and putting one in front are stated for one direction; the other
direction is the same on the reversed list.
-/

namespace Mozkey.Lib

variable {ν : Type*} {next prev : ν → Option ν}

/-- The links lead from the start through the nodes to the end. -/
def Leads (next : ν → Option ν) : Option ν → List ν → Option ν → Prop
  | start, [], stop => start = stop
  | start, n :: nodes, stop => start = some n ∧ Leads next (next n) nodes stop

/-- A doubly linked list: forwards from its head, and backwards from its tail. -/
structure DoublyLinked (next prev : ν → Option ν) (head tail : Option ν) (nodes : List ν) : Prop where
  forward : Leads next head nodes none
  backward : Leads prev tail nodes.reverse none

namespace Leads

variable {start stop : Option ν} {front back nodes : List ν} {n m : ν}

theorem append_iff : Leads next start (front ++ back) stop ↔
    ∃ middle, Leads next start front middle ∧ Leads next middle back stop := by
  induction front generalizing start with
  | nil => simp [Leads]
  | cons n front ih =>
      rw [List.cons_append, Leads, ih]
      simp only [Leads, and_assoc, exists_and_left]

/-- Links of other nodes do not matter. -/
theorem congr {other : ν → Option ν} (same : ∀ n ∈ nodes, other n = next n)
    (leads : Leads next start nodes stop) : Leads other start nodes stop := by
  induction nodes generalizing start with
  | nil => exact leads
  | cons n nodes ih =>
      obtain ⟨here, behind⟩ := leads
      obtain ⟨first, others⟩ := List.forall_mem_cons.1 same
      refine ⟨here, ?_⟩
      rw [first]
      exact ih others behind

theorem start_eq (leads : Leads next start nodes none) : start = nodes.head? := by
  cases nodes with
  | nil => exact leads
  | cons n nodes => exact leads.1

/-- A node leads to the one behind it. -/
theorem next_eq (leads : Leads next start (front ++ n :: back) none) : next n = back.head? := by
  obtain ⟨_, _, here⟩ := append_iff.1 leads
  exact here.2.start_eq

section
variable [DecidableEq ν]

/-- The links of a node that is no part of the list do not matter. -/
theorem update_of_not_mem {target : Option ν} (outside : n ∉ nodes)
    (leads : Leads next start nodes stop) :
    Leads (Function.update next n target) start nodes stop := by
  refine leads.congr fun m member => Function.update_of_ne ?_ _ _
  rintro rfl
  exact outside member

/-- The last node is led elsewhere. -/
theorem update_last {target : Option ν} (fresh : n ∉ nodes)
    (leads : Leads next start (nodes ++ [n]) stop) :
    Leads (Function.update next n target) start (nodes ++ [n]) target := by
  obtain ⟨middle, before, here⟩ := append_iff.1 leads
  refine append_iff.2 ⟨middle, before.update_of_not_mem fresh, here.1, ?_⟩
  exact Function.update_self n target next

/-- **A node is put in front.** -/
theorem cons (fresh : n ∉ nodes) (leads : Leads next start nodes stop) :
    Leads (Function.update next n start) (some n) (n :: nodes) stop := by
  refine ⟨rfl, ?_⟩
  rw [Function.update_self]
  exact leads.update_of_not_mem fresh

/-- The links after a node was cut out: the node before it leads on to the node behind it. -/
def unlinked (next prev : ν → Option ν) (n : ν) : ν → Option ν :=
  Function.update (match prev n with
    | some before => Function.update next before (next n)
    | none => next) n none

/-- **A node is cut out.** -/
theorem unlink (nodup : (front ++ n :: back).Nodup)
    (leads : Leads next start (front ++ n :: back) none) (before : prev n = front.getLast?) :
    Leads (unlinked next prev n) (if start = some n then next n else start) (front ++ back) none := by
  obtain ⟨frontNodup, backNodup, apart⟩ := List.nodup_append.1 nodup
  obtain ⟨notInBack, _⟩ := List.nodup_cons.1 backNodup
  have notInFront : n ∉ front := fun member => apart n member n List.mem_cons_self rfl
  obtain ⟨middle, leadsFront, isNode, leadsBack⟩ := append_iff.1 leads
  subst isNode
  unfold unlinked
  rw [before]
  rcases List.eq_nil_or_concat front with rfl | ⟨init, last, rfl⟩
  · have starts : start = some n := leadsFront
    rw [if_pos starts, List.getLast?_nil]
    exact leadsBack.update_of_not_mem notInBack
  · rw [List.concat_eq_append] at *
    have other : start ≠ some n := by
      intro starts
      have isFirst := leads.start_eq
      rw [starts] at isFirst
      refine notInFront ?_
      cases init with
      | nil => simpa using isFirst
      | cons first init =>
          rw [List.cons_append, List.cons_append, List.head?_cons] at isFirst
          rw [Option.some.inj isFirst]
          exact List.mem_cons_self
    rw [if_neg other, List.getLast?_append, List.getLast?_singleton, Option.some_or]
    obtain ⟨_, _, apartLast⟩ := List.nodup_append.1 frontNodup
    have lastFresh : last ∉ init := fun member => apartLast last member last List.mem_cons_self rfl
    have lastNotInBack : last ∉ back := fun member =>
      apart last (List.mem_append_right _ List.mem_cons_self) last (List.mem_cons_of_mem _ member) rfl
    refine append_iff.2 ⟨next n, ?_, ?_⟩
    · exact (leadsFront.update_last lastFresh).update_of_not_mem notInFront
    · exact (leadsBack.update_of_not_mem lastNotInBack).update_of_not_mem notInBack

end

end Leads

namespace DoublyLinked

variable {head tail : Option ν} {front back nodes : List ν} {n : ν}

theorem next_eq (linked : DoublyLinked next prev head tail (front ++ n :: back)) :
    next n = back.head? :=
  linked.forward.next_eq

theorem prev_eq (linked : DoublyLinked next prev head tail (front ++ n :: back)) :
    prev n = front.getLast? := by
  have backward := linked.backward
  rw [List.reverse_append, List.reverse_cons, List.append_assoc, List.singleton_append] at backward
  rw [backward.next_eq, List.head?_reverse]

section
variable [DecidableEq ν]

open Leads (unlinked)

/-- **A node is cut out** of a doubly linked list. -/
theorem unlink (nodup : (front ++ n :: back).Nodup)
    (linked : DoublyLinked next prev head tail (front ++ n :: back)) :
    DoublyLinked (unlinked next prev n) (unlinked prev next n)
      (if head = some n then next n else head) (if tail = some n then prev n else tail)
      (front ++ back) := by
  refine ⟨linked.forward.unlink nodup linked.prev_eq, ?_⟩
  have backward := linked.backward
  have nodup' := List.nodup_reverse.2 nodup
  rw [List.reverse_append, List.reverse_cons, List.append_assoc, List.singleton_append]
    at backward nodup'
  rw [List.reverse_append]
  refine backward.unlink nodup' ?_
  rw [linked.next_eq, List.getLast?_reverse]

/-- The backward links after a node was put in front of a head. -/
def linkedBack (prev : ν → Option ν) (head : Option ν) (n : ν) : ν → Option ν :=
  match head with
  | some first => Function.update prev first (some n)
  | none => prev

/-- **A node is put in front** of a doubly linked list. -/
theorem cons (fresh : n ∉ nodes) (unlinked : prev n = none)
    (linked : DoublyLinked next prev head tail nodes) (nodup : nodes.Nodup) :
    DoublyLinked (Function.update next n head) (linkedBack prev head n) (some n)
      (if tail = none then some n else tail) (n :: nodes) := by
  refine ⟨linked.forward.cons fresh, ?_⟩
  have isHead := linked.forward.start_eq
  have isTail := linked.backward.start_eq
  rw [List.reverse_cons]
  cases nodes with
  | nil =>
      rw [isTail, List.reverse_nil, List.head?_nil, if_pos rfl]
      rw [List.head?_nil] at isHead
      rw [isHead]
      exact ⟨rfl, unlinked⟩
  | cons first nodes =>
      rw [List.head?_cons] at isHead
      have some_ : tail ≠ none := by
        rw [isTail, List.head?_reverse]
        simp
      have links : linkedBack prev (some first) n = Function.update prev first (some n) := rfl
      rw [if_neg some_, isHead, links]
      have backward := linked.backward
      rw [List.reverse_cons] at backward ⊢
      have firstFresh : first ∉ nodes.reverse := by
        rw [List.mem_reverse]
        exact (List.nodup_cons.1 nodup).1
      refine Leads.append_iff.2 ⟨some n, backward.update_last firstFresh, rfl, ?_⟩
      have other : n ≠ first := by
        rintro rfl
        exact fresh List.mem_cons_self
      rw [Function.update_of_ne other, unlinked]
      rfl

end

end DoublyLinked

end Mozkey.Lib
