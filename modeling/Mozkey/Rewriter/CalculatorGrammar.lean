import Mathlib.Order.Lattice
import Mozkey.Rewriter.Calculator

/-!
# The grammar of the calculator

The derivations of the calculator's grammar are trees; the chains that its loops read are symbols of
their own.  A derivation is determined by its tokens, and the calculator returns its value, unless a
step of it is rejected or its calls are too many.
-/

namespace Mozkey.Rewriter.Calculator

variable {V : Type}

/-! ## The grammar -/

/-- The symbols of the grammar: `moreFactors` and `moreTerms` are what the loops read. -/
inductive Level
  | primary
  | unary
  | factor
  | moreFactors
  | term
  | moreTerms
  | expression
  deriving DecidableEq, Repr

/-- The derivations of the grammar. -/
inductive Tree (V : Type) : Level → Type
  | integer (value : V) : Tree V .primary
  | parens (e : Tree V .expression) : Tree V .primary
  | call (f : Function) (e : Tree V .expression) : Tree V .primary
  | plus (u : Tree V .unary) : Tree V .unary
  | minus (u : Tree V .unary) : Tree V .unary
  | operand (p : Tree V .primary) : Tree V .unary
  | base (u : Tree V .unary) : Tree V .factor
  | power (u : Tree V .unary) (f : Tree V .factor) : Tree V .factor
  | noFactor : Tree V .moreFactors
  | moreFactors (op : MulOp) (f : Tree V .factor) (more : Tree V .moreFactors) : Tree V .moreFactors
  | term (f : Tree V .factor) (more : Tree V .moreFactors) : Tree V .term
  | noTerm : Tree V .moreTerms
  | moreTerms (op : AddOp) (t : Tree V .term) (more : Tree V .moreTerms) : Tree V .moreTerms
  | expression (t : Tree V .term) (more : Tree V .moreTerms) : Tree V .expression

def MulOp.token : MulOp → Token V
  | .times => .times
  | .divide => .divide
  | .mod => .mod

def AddOp.token : AddOp → Token V
  | .plus => .plus
  | .minus => .minus

namespace Tree

/-- The tokens that are derived. -/
def tokens {level : Level} : Tree V level → List (Token V)
  | integer value => [.integer value]
  | parens e => .lp :: (e.tokens ++ [.rp])
  | call f e => .function f :: .lp :: (e.tokens ++ [.rp])
  | plus u => .plus :: u.tokens
  | minus u => .minus :: u.tokens
  | operand p => p.tokens
  | base u => u.tokens
  | power u f => u.tokens ++ .pow :: f.tokens
  | noFactor => []
  | moreFactors op f more => op.token :: (f.tokens ++ more.tokens)
  | term f more => f.tokens ++ more.tokens
  | noTerm => []
  | moreTerms op t more => op.token :: (t.tokens ++ more.tokens)
  | expression t more => t.tokens ++ more.tokens

/-- How many calls of procedures read a derivation. -/
def calls {level : Level} : Tree V level → Nat
  | integer _ => 1
  | parens e => 1 + e.calls
  | call _ e => 1 + e.calls
  | plus u => 1 + u.calls
  | minus u => 1 + u.calls
  | operand p => 1 + p.calls
  | base u => 1 + u.calls
  | power u f => 1 + u.calls + f.calls
  | noFactor => 0
  | moreFactors _ f more => f.calls + more.calls
  | term f more => 1 + f.calls + more.calls
  | noTerm => 0
  | moreTerms _ t more => t.calls + more.calls
  | expression t more => 1 + t.calls + more.calls

/-- What a derivation stands for: a value, or what is done to the value at the left. -/
def Meaning (V : Type) : Level → Type
  | .moreFactors | .moreTerms => V → Option V
  | _ => Option V

/-- The value of a derivation, none when a step of it is rejected.  Operators of the same precedence
are applied from the left, powers from the right. -/
def value (A : Arithmetic V) : {level : Level} → Tree V level → Meaning V level
  | _, integer value => some value
  | _, parens e => e.value A
  | _, call f e => Option.bind (e.value A) fun x => A.call f x
  | _, plus u => u.value A
  | _, minus u => Option.map A.negate (u.value A)
  | _, operand p => p.value A
  | _, base u => u.value A
  | _, power u f => Option.bind (u.value A) fun x => Option.bind (f.value A) fun y => A.power x y
  | _, noFactor => fun x => some x
  | _, moreFactors op f more => fun x =>
      Option.bind (f.value A) fun y => Option.bind (A.multiply op x y) fun z => more.value A z
  | _, term f more => Option.bind (f.value A) fun x => more.value A x
  | _, noTerm => fun x => some x
  | _, moreTerms op t more => fun x =>
      Option.bind (t.value A) fun y => Option.bind (A.sum op x y) fun z => more.value A z
  | _, expression t more => Option.bind (t.value A) fun x => more.value A x

attribute [simp] tokens calls

end Tree

/-- Tokens that do not go on with what was derived before them. -/
def Follows : Level → List (Token V) → Prop
  | .primary, _ | .unary, _ => True
  | .factor, rest => rest.head? ≠ some .pow
  | .moreFactors, rest | .term, rest =>
      rest.head? ≠ some .pow ∧ rest.head?.bind Token.mulOp = none
  | .moreTerms, rest | .expression, rest =>
      rest.head? ≠ some .pow ∧ rest.head?.bind Token.mulOp = none ∧
        rest.head?.bind Token.addOp = none

/-! ## The grammar is unambiguous -/

theorem mulOp_token (op : MulOp) : (op.token : Token V).mulOp = some op := by
  cases op <;> rfl

theorem addOp_token (op : AddOp) : (op.token : Token V).addOp = some op := by
  cases op <;> rfl

theorem eq_token_of_mulOp {token : Token V} {op : MulOp} (isOp : token.mulOp = some op) :
    token = op.token := by
  cases token <;> cases isOp <;> rfl

theorem eq_token_of_addOp {token : Token V} {op : AddOp} (isOp : token.addOp = some op) :
    token = op.token := by
  cases token <;> cases isOp <;> rfl

theorem follows_moreFactors {rest : List (Token V)} (more : Tree V .moreFactors)
    (follows : Follows .moreFactors rest) : Follows .factor (more.tokens ++ rest) := by
  cases more with
  | noFactor => exact follows.1
  | moreFactors op f more =>
      cases op <;> rintro ⟨⟩

theorem follows_moreTerms {rest : List (Token V)} (more : Tree V .moreTerms)
    (follows : Follows .moreTerms rest) : Follows .term (more.tokens ++ rest) := by
  cases more with
  | noTerm => exact ⟨follows.1, follows.2.1⟩
  | moreTerms op f more =>
      cases op <;> exact ⟨by rintro ⟨⟩, rfl⟩

theorem follows_rp (rest : List (Token V)) : Follows .expression (.rp :: rest) :=
  ⟨by rintro ⟨⟩, rfl, rfl⟩

/-- The first token of a primary expression is no sign. -/
theorem Tree.primary_head (p : Tree V .primary) :
    ∃ token tail, p.tokens = token :: tail ∧ token ≠ .plus ∧ token ≠ .minus := by
  cases p with
  | integer value => exact ⟨_, _, rfl, nofun, nofun⟩
  | parens e => exact ⟨_, _, rfl, nofun, nofun⟩
  | call f e => exact ⟨_, _, rfl, nofun, nofun⟩

/-- A derivation is determined by its tokens, also in front of tokens that do not go on with it. -/
def Tree.Determined {level : Level} (first : Tree V level) : Prop :=
  ∀ (second : Tree V level) (rest rest' : List (Token V)),
    first.tokens ++ rest = second.tokens ++ rest' → Follows level rest → Follows level rest' →
      first = second ∧ rest = rest'

namespace Tree.Determined

theorem integer (value : V) : (Tree.integer value).Determined := by
  intro second rest rest' same _ _
  cases second with
  | integer value' =>
      cases same
      exact ⟨rfl, rfl⟩
  | parens e' => cases same
  | call f' e' => cases same

theorem parens {e : Tree V .expression} (ih : e.Determined) : (Tree.parens e).Determined := by
  intro second rest rest' same _ _
  cases second with
  | integer value' => cases same
  | parens e' =>
      have inner : e.tokens ++ .rp :: rest = e'.tokens ++ .rp :: rest' := by
        simpa [tokens] using same
      obtain ⟨rfl, behind⟩ := ih e' _ _ inner (follows_rp rest) (follows_rp rest')
      exact ⟨rfl, (List.cons.inj behind).2⟩
  | call f' e' => cases same

theorem call (f : Function) {e : Tree V .expression} (ih : e.Determined) :
    (Tree.call f e).Determined := by
  intro second rest rest' same _ _
  cases second with
  | integer value' => cases same
  | parens e' => cases same
  | call f' e' =>
      have inner : f = f' ∧ e.tokens ++ .rp :: rest = e'.tokens ++ .rp :: rest' := by
        simpa [tokens] using same
      obtain ⟨rfl, inner⟩ := inner
      obtain ⟨rfl, behind⟩ := ih e' _ _ inner (follows_rp rest) (follows_rp rest')
      exact ⟨rfl, (List.cons.inj behind).2⟩

theorem plus {u : Tree V .unary} (ih : u.Determined) : (Tree.plus u).Determined := by
  intro second rest rest' same _ _
  cases second with
  | plus u' =>
      obtain ⟨rfl, behind⟩ := ih u' _ _ (List.cons.inj same).2 trivial trivial
      exact ⟨rfl, behind⟩
  | minus u' => cases same
  | operand p' =>
      obtain ⟨token, tail, head, notPlus, -⟩ := p'.primary_head
      rw [tokens, tokens, head] at same
      exact absurd (List.cons.inj same).1.symm notPlus

theorem minus {u : Tree V .unary} (ih : u.Determined) : (Tree.minus u).Determined := by
  intro second rest rest' same _ _
  cases second with
  | plus u' => cases same
  | minus u' =>
      obtain ⟨rfl, behind⟩ := ih u' _ _ (List.cons.inj same).2 trivial trivial
      exact ⟨rfl, behind⟩
  | operand p' =>
      obtain ⟨token, tail, head, -, notMinus⟩ := p'.primary_head
      rw [tokens, tokens, head] at same
      exact absurd (List.cons.inj same).1.symm notMinus

theorem operand {p : Tree V .primary} (ih : p.Determined) : (Tree.operand p).Determined := by
  intro second rest rest' same _ _
  cases second with
  | plus u' =>
      obtain ⟨token, tail, head, notPlus, -⟩ := p.primary_head
      rw [tokens, tokens, head] at same
      exact absurd (List.cons.inj same).1 notPlus
  | minus u' =>
      obtain ⟨token, tail, head, -, notMinus⟩ := p.primary_head
      rw [tokens, tokens, head] at same
      exact absurd (List.cons.inj same).1 notMinus
  | operand p' =>
      obtain ⟨rfl, behind⟩ := ih p' _ _ same trivial trivial
      exact ⟨rfl, behind⟩

theorem base {u : Tree V .unary} (ih : u.Determined) : (Tree.base u).Determined := by
  intro second rest rest' same follows _
  cases second with
  | base u' =>
      obtain ⟨rfl, behind⟩ := ih u' _ _ same trivial trivial
      exact ⟨rfl, behind⟩
  | power u' f' =>
      rw [tokens, tokens, List.append_assoc] at same
      obtain ⟨-, rfl⟩ := ih u' _ _ same trivial trivial
      exact absurd rfl follows

theorem power {u : Tree V .unary} {f : Tree V .factor} (ihU : u.Determined) (ihF : f.Determined) :
    (Tree.power u f).Determined := by
  intro second rest rest' same follows follows'
  cases second with
  | base u' =>
      rw [tokens, tokens, List.append_assoc] at same
      obtain ⟨-, rfl⟩ := ihU u' _ _ same trivial trivial
      exact absurd rfl follows'
  | power u' f' =>
      rw [tokens, tokens, List.append_assoc, List.append_assoc] at same
      obtain ⟨rfl, behind⟩ := ihU u' _ _ same trivial trivial
      obtain ⟨rfl, last⟩ := ihF f' _ _ (List.cons.inj behind).2 follows follows'
      exact ⟨rfl, last⟩

/-- What follows a chain of factors does not start with an operator that goes on with it. -/
theorem not_follows_moreFactors (op : MulOp) (f : Tree V .factor) (more : Tree V .moreFactors)
    (rest : List (Token V)) :
    ¬ Follows .moreFactors ((Tree.moreFactors op f more).tokens ++ rest) := by
  rintro ⟨-, isNone⟩
  rw [tokens, List.cons_append, List.head?_cons, Option.bind_some, mulOp_token] at isNone
  cases isNone

theorem not_follows_moreTerms (op : AddOp) (t : Tree V .term) (more : Tree V .moreTerms)
    (rest : List (Token V)) :
    ¬ Follows .moreTerms ((Tree.moreTerms op t more).tokens ++ rest) := by
  rintro ⟨-, -, isNone⟩
  rw [tokens, List.cons_append, List.head?_cons, Option.bind_some, addOp_token] at isNone
  cases isNone

theorem noFactor : (Tree.noFactor : Tree V .moreFactors).Determined := by
  intro second rest rest' same follows _
  cases second with
  | noFactor => exact ⟨rfl, same⟩
  | moreFactors op' f' more' =>
      obtain rfl : rest = _ := same
      exact absurd follows (not_follows_moreFactors op' f' more' rest')

theorem moreFactors (op : MulOp) {f : Tree V .factor} {more : Tree V .moreFactors}
    (ihF : f.Determined) (ihMore : more.Determined) : (Tree.moreFactors op f more).Determined := by
  intro second rest rest' same follows follows'
  cases second with
  | noFactor =>
      obtain rfl : _ = rest' := same
      exact absurd follows' (not_follows_moreFactors op f more rest)
  | moreFactors op' f' more' =>
      rw [tokens, tokens, List.cons_append, List.cons_append, List.append_assoc,
        List.append_assoc] at same
      obtain ⟨isOp, behind⟩ := List.cons.inj same
      have sameOp := congrArg Token.mulOp isOp
      rw [mulOp_token, mulOp_token] at sameOp
      obtain rfl := Option.some.inj sameOp
      obtain ⟨rfl, inner⟩ := ihF f' _ _ behind (follows_moreFactors more follows)
        (follows_moreFactors more' follows')
      obtain ⟨rfl, last⟩ := ihMore more' _ _ inner follows follows'
      exact ⟨rfl, last⟩

theorem term {f : Tree V .factor} {more : Tree V .moreFactors} (ihF : f.Determined)
    (ihMore : more.Determined) : (Tree.term f more).Determined := by
  intro second rest rest' same follows follows'
  cases second with
  | term f' more' =>
      rw [tokens, tokens, List.append_assoc, List.append_assoc] at same
      obtain ⟨rfl, inner⟩ := ihF f' _ _ same (follows_moreFactors more follows)
        (follows_moreFactors more' follows')
      obtain ⟨rfl, last⟩ := ihMore more' _ _ inner follows follows'
      exact ⟨rfl, last⟩

theorem noTerm : (Tree.noTerm : Tree V .moreTerms).Determined := by
  intro second rest rest' same follows _
  cases second with
  | noTerm => exact ⟨rfl, same⟩
  | moreTerms op' t' more' =>
      obtain rfl : rest = _ := same
      exact absurd follows (not_follows_moreTerms op' t' more' rest')

theorem moreTerms (op : AddOp) {t : Tree V .term} {more : Tree V .moreTerms}
    (ihT : t.Determined) (ihMore : more.Determined) : (Tree.moreTerms op t more).Determined := by
  intro second rest rest' same follows follows'
  cases second with
  | noTerm =>
      obtain rfl : _ = rest' := same
      exact absurd follows' (not_follows_moreTerms op t more rest)
  | moreTerms op' t' more' =>
      rw [tokens, tokens, List.cons_append, List.cons_append, List.append_assoc,
        List.append_assoc] at same
      obtain ⟨isOp, behind⟩ := List.cons.inj same
      have sameOp := congrArg Token.addOp isOp
      rw [addOp_token, addOp_token] at sameOp
      obtain rfl := Option.some.inj sameOp
      obtain ⟨rfl, inner⟩ := ihT t' _ _ behind (follows_moreTerms more follows)
        (follows_moreTerms more' follows')
      obtain ⟨rfl, last⟩ := ihMore more' _ _ inner follows follows'
      exact ⟨rfl, last⟩

theorem expression {t : Tree V .term} {more : Tree V .moreTerms} (ihT : t.Determined)
    (ihMore : more.Determined) : (Tree.expression t more).Determined := by
  intro second rest rest' same follows follows'
  cases second with
  | expression t' more' =>
      rw [tokens, tokens, List.append_assoc, List.append_assoc] at same
      obtain ⟨rfl, inner⟩ := ihT t' _ _ same (follows_moreTerms more follows)
        (follows_moreTerms more' follows')
      obtain ⟨rfl, last⟩ := ihMore more' _ _ inner follows follows'
      exact ⟨rfl, last⟩

end Tree.Determined

/-- **The grammar is unambiguous.** -/
theorem Tree.determined {level : Level} (tree : Tree V level) : tree.Determined := by
  induction tree with
  | integer value => exact .integer value
  | parens e ih => exact .parens ih
  | call f e ih => exact .call f ih
  | plus u ih => exact .plus ih
  | minus u ih => exact .minus ih
  | operand p ih => exact .operand ih
  | base u ih => exact .base ih
  | power u f ihU ihF => exact .power ihU ihF
  | noFactor => exact .noFactor
  | moreFactors op f more ihF ihMore => exact .moreFactors op ihF ihMore
  | term f more ihF ihMore => exact .term ihF ihMore
  | noTerm => exact .noTerm
  | moreTerms op t more ihT ihMore => exact .moreTerms op ihT ihMore
  | expression t more ihT ihMore => exact .expression ihT ihMore

/-! ## What is parsed is derived -/

section
variable {A : Arithmetic V} {limit fuel : Nat}

theorem bind_eq_parsed {outcome : Outcome V} {next : V → List (Token V) → Nat → Outcome V} {v : V}
    {rest : List (Token V)} {count : Nat} :
    outcome.bind next = .parsed v rest count ↔
      ∃ v' rest' count', outcome = .parsed v' rest' count' ∧
        next v' rest' count' = .parsed v rest count := by
  cases outcome with
  | running => exact iff_of_false nofun nofun
  | rejected => exact iff_of_false nofun nofun
  | parsed v' rest' count' =>
      constructor
      · exact fun result => ⟨v', rest', count', rfl, result⟩
      · rintro ⟨_, _, _, same, result⟩
        cases same
        exact result

theorem closed_eq_parsed {outcome : Outcome V} {v : V} {rest : List (Token V)} {count : Nat} :
    outcome.closed = .parsed v rest count ↔ outcome = .parsed v (.rp :: rest) count := by
  rw [Outcome.closed, bind_eq_parsed]
  constructor
  · rintro ⟨v', rest', count', rfl, result⟩
    split at result
    · cases result
      rfl
    · cases result
  · rintro rfl
    exact ⟨_, _, _, rfl, rfl⟩

theorem ofOption_eq_parsed {value : Option V} {v : V} {rest rest' : List (Token V)}
    {count count' : Nat} :
    Outcome.ofOption value rest count = .parsed v rest' count' ↔
      value = some v ∧ rest = rest' ∧ count = count' := by
  cases value <;> simp [Outcome.ofOption]

/-- What was read is derived, and the calls of the derivation were counted. -/
def Derives (level : Level) (value : Tree V level → Option V) (limit : Nat)
    (tokens : List (Token V)) (count : Nat) (v : V) (rest : List (Token V)) (count' : Nat) : Prop :=
  ∃ tree : Tree V level, tokens = tree.tokens ++ rest ∧ value tree = some v ∧
    count' = count + tree.calls ∧ count' ≤ limit

/-- The procedures and their loops read derivations. -/
structure Sound (A : Arithmetic V) (limit fuel : Nat) : Prop where
  primary : ∀ tokens count v rest count',
    parsePrimary A limit fuel tokens count = .parsed v rest count' →
    Derives .primary (fun tree => tree.value A) limit tokens count v rest count'
  unary : ∀ tokens count v rest count',
    parseUnary A limit fuel tokens count = .parsed v rest count' →
    Derives .unary (fun tree => tree.value A) limit tokens count v rest count'
  factor : ∀ tokens count v rest count',
    parseFactor A limit fuel tokens count = .parsed v rest count' →
    Derives .factor (fun tree => tree.value A) limit tokens count v rest count'
  moreFactors : ∀ x tokens count v rest count', count ≤ limit →
    termLoop A limit fuel x tokens count = .parsed v rest count' →
    Derives .moreFactors (fun tree => tree.value A x) limit tokens count v rest count'
  term : ∀ tokens count v rest count',
    parseTerm A limit fuel tokens count = .parsed v rest count' →
    Derives .term (fun tree => tree.value A) limit tokens count v rest count'
  moreTerms : ∀ x tokens count v rest count', count ≤ limit →
    expressionLoop A limit fuel x tokens count = .parsed v rest count' →
    Derives .moreTerms (fun tree => tree.value A x) limit tokens count v rest count'
  expression : ∀ tokens count v rest count',
    parseExpression A limit fuel tokens count = .parsed v rest count' →
    Derives .expression (fun tree => tree.value A) limit tokens count v rest count'

namespace Sound

theorem zero : Sound A limit 0 where
  primary _ _ _ _ _ result := by rw [parsePrimary] at result; cases result
  unary _ _ _ _ _ result := by rw [parseUnary] at result; cases result
  factor _ _ _ _ _ result := by rw [parseFactor] at result; cases result
  moreFactors _ _ _ _ _ _ _ result := by rw [termLoop] at result; cases result
  term _ _ _ _ _ result := by rw [parseTerm] at result; cases result
  moreTerms _ _ _ _ _ _ _ result := by rw [expressionLoop] at result; cases result
  expression _ _ _ _ _ result := by rw [parseExpression] at result; cases result

variable {tokens rest : List (Token V)} {count count' : Nat} {v x : V}

theorem primary_succ (ih : Sound A limit fuel)
    (result : parsePrimary A limit (fuel + 1) tokens count = .parsed v rest count') :
    Derives .primary (fun tree => tree.value A) limit tokens count v rest count' := by
  rw [parsePrimary_succ] at result
  split at result
  · cases result
  · rename_i room
    split at result
    · cases result
      exact ⟨.integer v, rfl, rfl, rfl, Nat.le_of_not_lt room⟩
    · rw [closed_eq_parsed] at result
      obtain ⟨e, rfl, isValue, rfl, most⟩ := ih.expression _ _ _ _ _ result
      exact ⟨.parens e, by simp [Tree.tokens], isValue, by rw [Tree.calls]; omega, most⟩
    · rename_i f _
      rw [bind_eq_parsed] at result
      obtain ⟨arg, _, _, inner, last⟩ := result
      rw [closed_eq_parsed] at inner
      obtain ⟨e, rfl, isValue, rfl, most⟩ := ih.expression _ _ _ _ _ inner
      obtain ⟨applied, rfl, rfl⟩ := ofOption_eq_parsed.1 last
      refine ⟨.call f e, by simp [Tree.tokens], ?_, by rw [Tree.calls]; omega, most⟩
      exact Option.bind_eq_some_iff.2 ⟨arg, isValue, applied⟩
    · cases result

theorem unary_succ (ih : Sound A limit fuel)
    (result : parseUnary A limit (fuel + 1) tokens count = .parsed v rest count') :
    Derives .unary (fun tree => tree.value A) limit tokens count v rest count' := by
  rw [parseUnary_succ] at result
  split at result
  · cases result
  · split at result
    · cases result
    · obtain ⟨u, rfl, isValue, rfl, most⟩ := ih.unary _ _ _ _ _ result
      exact ⟨.plus u, rfl, isValue, by rw [Tree.calls]; omega, most⟩
    · rw [bind_eq_parsed] at result
      obtain ⟨rhs, _, _, inner, last⟩ := result
      obtain ⟨u, rfl, isValue, rfl, most⟩ := ih.unary _ _ _ _ _ inner
      cases last
      exact ⟨.minus u, rfl, congrArg (Option.map A.negate) isValue,
        by rw [Tree.calls]; omega, most⟩
    · obtain ⟨p, rfl, isValue, rfl, most⟩ := ih.primary _ _ _ _ _ result
      exact ⟨.operand p, rfl, isValue, by rw [Tree.calls]; omega, most⟩

theorem factor_succ (ih : Sound A limit fuel)
    (result : parseFactor A limit (fuel + 1) tokens count = .parsed v rest count') :
    Derives .factor (fun tree => tree.value A) limit tokens count v rest count' := by
  rw [parseFactor_succ] at result
  split at result
  · cases result
  · rw [bind_eq_parsed] at result
    obtain ⟨x, behind, _, inner, last⟩ := result
    obtain ⟨u, rfl, isValue, rfl, most⟩ := ih.unary _ _ _ _ _ inner
    split at last
    · rw [bind_eq_parsed] at last
      obtain ⟨y, _, _, inner', last⟩ := last
      obtain ⟨f, rfl, isValue', rfl, most'⟩ := ih.factor _ _ _ _ _ inner'
      obtain ⟨applied, rfl, rfl⟩ := ofOption_eq_parsed.1 last
      refine ⟨.power u f, by simp [Tree.tokens], ?_, by rw [Tree.calls]; omega, most'⟩
      exact Option.bind_eq_some_iff.2 ⟨x, isValue,
        Option.bind_eq_some_iff.2 ⟨y, isValue', applied⟩⟩
    · cases last
      exact ⟨.base u, rfl, isValue, by rw [Tree.calls]; omega, most⟩

theorem moreFactors_succ (ih : Sound A limit fuel) (room : count ≤ limit)
    (result : termLoop A limit (fuel + 1) x tokens count = .parsed v rest count') :
    Derives .moreFactors (fun tree => tree.value A x) limit tokens count v rest count' := by
  rw [termLoop_succ] at result
  split at result
  · cases result
    exact ⟨.noFactor, rfl, rfl, rfl, room⟩
  · split at result
    · cases result
      exact ⟨.noFactor, rfl, rfl, rfl, room⟩
    · rename_i op isOp
      rw [bind_eq_parsed] at result
      obtain ⟨y, _, _, inner, last⟩ := result
      obtain ⟨f, rfl, isValue, rfl, most⟩ := ih.factor _ _ _ _ _ inner
      split at last
      · cases last
      · rename_i z applied
        obtain ⟨more, rfl, isValue', rfl, most'⟩ := ih.moreFactors _ _ _ _ _ _ most last
        refine ⟨.moreFactors op f more, ?_, ?_, by rw [Tree.calls]; omega, most'⟩
        · rw [eq_token_of_mulOp isOp, Tree.tokens, List.cons_append, List.append_assoc]
        · exact Option.bind_eq_some_iff.2 ⟨y, isValue,
            Option.bind_eq_some_iff.2 ⟨z, applied, isValue'⟩⟩

theorem term_succ (ih : Sound A limit fuel)
    (result : parseTerm A limit (fuel + 1) tokens count = .parsed v rest count') :
    Derives .term (fun tree => tree.value A) limit tokens count v rest count' := by
  rw [parseTerm_succ] at result
  split at result
  · cases result
  · rw [bind_eq_parsed] at result
    obtain ⟨x, _, _, inner, last⟩ := result
    obtain ⟨f, rfl, isValue, rfl, most⟩ := ih.factor _ _ _ _ _ inner
    obtain ⟨more, rfl, isValue', rfl, most'⟩ := ih.moreFactors _ _ _ _ _ _ most last
    refine ⟨.term f more, ?_, ?_, by rw [Tree.calls]; omega, most'⟩
    · rw [Tree.tokens, List.append_assoc]
    · exact Option.bind_eq_some_iff.2 ⟨x, isValue, isValue'⟩

theorem moreTerms_succ (ih : Sound A limit fuel) (room : count ≤ limit)
    (result : expressionLoop A limit (fuel + 1) x tokens count = .parsed v rest count') :
    Derives .moreTerms (fun tree => tree.value A x) limit tokens count v rest count' := by
  rw [expressionLoop_succ] at result
  split at result
  · cases result
    exact ⟨.noTerm, rfl, rfl, rfl, room⟩
  · split at result
    · cases result
      exact ⟨.noTerm, rfl, rfl, rfl, room⟩
    · rename_i op isOp
      rw [bind_eq_parsed] at result
      obtain ⟨y, _, _, inner, last⟩ := result
      obtain ⟨t, rfl, isValue, rfl, most⟩ := ih.term _ _ _ _ _ inner
      split at last
      · cases last
      · rename_i z applied
        obtain ⟨more, rfl, isValue', rfl, most'⟩ := ih.moreTerms _ _ _ _ _ _ most last
        refine ⟨.moreTerms op t more, ?_, ?_, by rw [Tree.calls]; omega, most'⟩
        · rw [eq_token_of_addOp isOp, Tree.tokens, List.cons_append, List.append_assoc]
        · exact Option.bind_eq_some_iff.2 ⟨y, isValue,
            Option.bind_eq_some_iff.2 ⟨z, applied, isValue'⟩⟩

theorem expression_succ (ih : Sound A limit fuel)
    (result : parseExpression A limit (fuel + 1) tokens count = .parsed v rest count') :
    Derives .expression (fun tree => tree.value A) limit tokens count v rest count' := by
  rw [parseExpression_succ] at result
  split at result
  · cases result
  · rw [bind_eq_parsed] at result
    obtain ⟨x, _, _, inner, last⟩ := result
    obtain ⟨t, rfl, isValue, rfl, most⟩ := ih.term _ _ _ _ _ inner
    obtain ⟨more, rfl, isValue', rfl, most'⟩ := ih.moreTerms _ _ _ _ _ _ most last
    refine ⟨.expression t more, ?_, ?_, by rw [Tree.calls]; omega, most'⟩
    · rw [Tree.tokens, List.append_assoc]
    · exact Option.bind_eq_some_iff.2 ⟨x, isValue, isValue'⟩

end Sound

/-- **What is parsed is derived.** -/
theorem sound (A : Arithmetic V) (limit fuel : Nat) : Sound A limit fuel := by
  induction fuel with
  | zero => exact .zero
  | succ fuel ih =>
      exact {
        primary := fun _ _ _ _ _ result => ih.primary_succ result
        unary := fun _ _ _ _ _ result => ih.unary_succ result
        factor := fun _ _ _ _ _ result => ih.factor_succ result
        moreFactors := fun _ _ _ _ _ _ room result => ih.moreFactors_succ room result
        term := fun _ _ _ _ _ result => ih.term_succ result
        moreTerms := fun _ _ _ _ _ _ room result => ih.moreTerms_succ room result
        expression := fun _ _ _ _ _ result => ih.expression_succ result }

/-! ## What is derived is parsed -/

/-- How many steps read a derivation. -/
def Tree.size {level : Level} : Tree V level → Nat
  | .integer _ | .noFactor | .noTerm => 1
  | .parens e | .call _ e => e.size + 1
  | .plus u | .minus u | .base u => u.size + 1
  | .operand p => p.size + 1
  | .power u f => u.size + f.size + 1
  | .moreFactors _ f more => f.size + more.size + 1
  | .term f more => f.size + more.size + 1
  | .moreTerms _ t more => t.size + more.size + 1
  | .expression t more => t.size + more.size + 1

attribute [simp] Tree.size

/-- The procedure of a symbol; the loops have a value already. -/
def parse (A : Arithmetic V) (limit fuel : Nat) (x : V) :
    Level → List (Token V) → Nat → Outcome V
  | .primary => parsePrimary A limit fuel
  | .unary => parseUnary A limit fuel
  | .factor => parseFactor A limit fuel
  | .moreFactors => termLoop A limit fuel x
  | .term => parseTerm A limit fuel
  | .moreTerms => expressionLoop A limit fuel x
  | .expression => parseExpression A limit fuel

/-- The value of a derivation behind a value. -/
def Tree.valueFrom (A : Arithmetic V) (x : V) : {level : Level} → Tree V level → Option V
  | .moreFactors, tree | .moreTerms, tree => tree.value A x
  | .primary, tree | .unary, tree | .factor, tree | .term, tree | .expression, tree => tree.value A

theorem Tree.size_pos {level : Level} (tree : Tree V level) : 1 ≤ tree.size := by
  cases tree <;> exact Nat.le_add_left 1 _

theorem counted {count calls : Nat} (room : count + (1 + calls) ≤ limit) : ¬ count + 1 > limit := by
  omega

variable (A limit) in
/-- A derivation is read, given the steps and the operations that it takes. -/
def Tree.Parsed {level : Level} (tree : Tree V level) : Prop :=
  ∀ (fuel count : Nat) (x v : V) (rest : List (Token V)), tree.size ≤ fuel →
    tree.valueFrom A x = some v → count + tree.calls ≤ limit → Follows level rest →
      parse A limit fuel x level (tree.tokens ++ rest) count =
        .parsed v rest (count + tree.calls)

namespace Tree.Parsed

theorem integer (value : V) : (Tree.integer value).Parsed A limit := by
  intro fuel count x v rest enough isValue room _
  obtain ⟨fuel, rfl⟩ := Nat.exists_eq_add_of_le' ((size_pos _).trans enough)
  cases isValue
  change parsePrimary A limit (fuel + 1) _ _ = _
  rw [parsePrimary_succ]
  dsimp only [tokens, List.cons_append]
  have most : ¬ count + 1 > limit := Nat.not_lt.2 room
  rw [if_neg most]
  rfl

theorem parens {e : Tree V .expression} (ih : e.Parsed A limit) :
    (Tree.parens e).Parsed A limit := by
  intro fuel count x v rest enough isValue room _
  obtain ⟨fuel, rfl⟩ := Nat.exists_eq_add_of_le' ((size_pos _).trans enough)
  rw [Tree.calls] at room
  have inner := ih fuel (count + 1) x _ _ (Nat.le_of_succ_le_succ enough) isValue
    (by rwa [Nat.add_assoc]) (follows_rp rest)
  change parsePrimary A limit (fuel + 1) _ _ = _
  rw [parsePrimary_succ]
  dsimp only [tokens, List.cons_append]
  rw [if_neg (counted room), List.append_assoc, closed_eq_parsed, Tree.calls,
    ← Nat.add_assoc]
  exact inner

theorem call (f : Function) {e : Tree V .expression} (ih : e.Parsed A limit) :
    (Tree.call f e).Parsed A limit := by
  intro fuel count x v rest enough isValue room _
  obtain ⟨fuel, rfl⟩ := Nat.exists_eq_add_of_le' ((size_pos _).trans enough)
  rw [Tree.calls] at room
  obtain ⟨arg, isArg, applied⟩ := Option.bind_eq_some_iff.1 isValue
  have inner := ih fuel (count + 1) x _ _ (Nat.le_of_succ_le_succ enough) isArg
    (by rwa [Nat.add_assoc]) (follows_rp rest)
  change parsePrimary A limit (fuel + 1) _ _ = _
  rw [parsePrimary_succ]
  dsimp only [tokens, List.cons_append]
  rw [if_neg (counted room), List.append_assoc, bind_eq_parsed, Tree.calls, ← Nat.add_assoc]
  refine ⟨arg, rest, _, closed_eq_parsed.2 inner, ?_⟩
  exact ofOption_eq_parsed.2 ⟨applied, rfl, rfl⟩

theorem plus {u : Tree V .unary} (ih : u.Parsed A limit) : (Tree.plus u).Parsed A limit := by
  intro fuel count x v rest enough isValue room _
  obtain ⟨fuel, rfl⟩ := Nat.exists_eq_add_of_le' ((size_pos _).trans enough)
  rw [Tree.calls] at room
  have inner := ih fuel (count + 1) x _ rest (Nat.le_of_succ_le_succ enough) isValue
    (by rwa [Nat.add_assoc]) trivial
  change parseUnary A limit (fuel + 1) _ _ = _
  rw [parseUnary_succ]
  dsimp only [tokens, List.cons_append]
  rw [if_neg (counted room), Tree.calls, ← Nat.add_assoc]
  exact inner

theorem minus {u : Tree V .unary} (ih : u.Parsed A limit) : (Tree.minus u).Parsed A limit := by
  intro fuel count x v rest enough isValue room _
  obtain ⟨fuel, rfl⟩ := Nat.exists_eq_add_of_le' ((size_pos _).trans enough)
  rw [Tree.calls] at room
  obtain ⟨rhs, isRhs, rfl⟩ := Option.map_eq_some_iff.1 isValue
  have inner := ih fuel (count + 1) x _ rest (Nat.le_of_succ_le_succ enough) isRhs
    (by rwa [Nat.add_assoc]) trivial
  change parseUnary A limit (fuel + 1) _ _ = _
  rw [parseUnary_succ]
  dsimp only [tokens, List.cons_append]
  rw [if_neg (counted room), bind_eq_parsed, Tree.calls, ← Nat.add_assoc]
  exact ⟨rhs, rest, _, inner, rfl⟩

theorem operand {p : Tree V .primary} (ih : p.Parsed A limit) :
    (Tree.operand p).Parsed A limit := by
  intro fuel count x v rest enough isValue room _
  obtain ⟨fuel, rfl⟩ := Nat.exists_eq_add_of_le' ((size_pos _).trans enough)
  rw [Tree.calls] at room
  have inner := ih fuel (count + 1) x _ rest (Nat.le_of_succ_le_succ enough) isValue
    (by rwa [Nat.add_assoc]) trivial
  change parseUnary A limit (fuel + 1) _ _ = _
  obtain ⟨token, tail, head, notPlus, notMinus⟩ := p.primary_head
  rw [parseUnary_succ]
  dsimp only [tokens]
  rw [if_neg (counted room), Tree.calls, ← Nat.add_assoc]
  change parsePrimary A limit fuel _ _ = _ at inner
  rw [head] at inner ⊢
  rw [List.cons_append] at inner ⊢
  split
  · cases ‹_ = []›
  · rename_i same
    exact absurd (List.cons.inj same).1 notPlus
  · rename_i same
    exact absurd (List.cons.inj same).1 notMinus
  · exact inner

theorem base {u : Tree V .unary} (ih : u.Parsed A limit) : (Tree.base u).Parsed A limit := by
  intro fuel count x v rest enough isValue room follows
  obtain ⟨fuel, rfl⟩ := Nat.exists_eq_add_of_le' ((size_pos _).trans enough)
  rw [Tree.calls] at room
  have inner := ih fuel (count + 1) x _ rest (Nat.le_of_succ_le_succ enough) isValue
    (by rwa [Nat.add_assoc]) trivial
  change parseFactor A limit (fuel + 1) _ _ = _
  rw [parseFactor_succ]
  dsimp only [tokens]
  rw [if_neg (counted room), bind_eq_parsed, Tree.calls, ← Nat.add_assoc]
  refine ⟨v, rest, _, inner, ?_⟩
  split
  · exact absurd rfl follows
  · rfl

theorem power {u : Tree V .unary} {f : Tree V .factor} (ihU : u.Parsed A limit)
    (ihF : f.Parsed A limit) : (Tree.power u f).Parsed A limit := by
  intro fuel count x v rest enough isValue room follows
  obtain ⟨fuel, rfl⟩ := Nat.exists_eq_add_of_le' ((size_pos _).trans enough)
  rw [Tree.calls] at room
  rw [size] at enough
  obtain ⟨a, isA, isValue⟩ := Option.bind_eq_some_iff.1 isValue
  obtain ⟨b, isB, applied⟩ := Option.bind_eq_some_iff.1 isValue
  have first := ihU fuel (count + 1) x _ (.pow :: (f.tokens ++ rest)) (by omega) isA
    (by omega) trivial
  have second := ihF fuel (count + 1 + u.calls) x _ rest (by omega) isB (by omega) follows
  change parseFactor A limit (fuel + 1) _ _ = _
  rw [parseFactor_succ]
  dsimp only [tokens]
  rw [if_neg (counted (Nat.add_assoc 1 _ _ ▸ room)), List.append_assoc, bind_eq_parsed,
    Tree.calls, ← Nat.add_assoc, ← Nat.add_assoc]
  refine ⟨a, _, _, first, ?_⟩
  dsimp only
  rw [bind_eq_parsed]
  exact ⟨b, rest, _, second, ofOption_eq_parsed.2 ⟨applied, rfl, rfl⟩⟩

theorem noFactor : (Tree.noFactor : Tree V .moreFactors).Parsed A limit := by
  intro fuel count x v rest enough isValue _ follows
  obtain ⟨fuel, rfl⟩ := Nat.exists_eq_add_of_le' ((size_pos _).trans enough)
  cases isValue
  change termLoop A limit (fuel + 1) _ _ _ = _
  rw [termLoop_succ]
  dsimp only [tokens, List.nil_append]
  cases rest with
  | nil => rfl
  | cons token rest =>
      have isNone : token.mulOp = none := follows.2
      dsimp only
      rw [isNone]
      rfl

theorem moreFactors (op : MulOp) {f : Tree V .factor} {more : Tree V .moreFactors}
    (ihF : f.Parsed A limit) (ihMore : more.Parsed A limit) :
    (Tree.moreFactors op f more).Parsed A limit := by
  intro fuel count x v rest enough isValue room follows
  obtain ⟨fuel, rfl⟩ := Nat.exists_eq_add_of_le' ((size_pos _).trans enough)
  rw [Tree.calls] at room
  rw [size] at enough
  obtain ⟨y, isY, isValue⟩ := Option.bind_eq_some_iff.1 isValue
  obtain ⟨z, applied, isValue⟩ := Option.bind_eq_some_iff.1 isValue
  have first := ihF fuel count x _ (more.tokens ++ rest)
    (by omega) isY (by omega) (follows_moreFactors more follows)
  have second := ihMore fuel (count + f.calls) z _ rest (by omega) isValue (by omega) follows
  change termLoop A limit (fuel + 1) _ _ _ = _
  rw [termLoop_succ]
  dsimp only [tokens, List.cons_append]
  rw [mulOp_token, List.append_assoc, Tree.calls, ← Nat.add_assoc]
  dsimp only
  rw [bind_eq_parsed]
  refine ⟨y, _, _, first, ?_⟩
  rw [applied]
  exact second

theorem term {f : Tree V .factor} {more : Tree V .moreFactors} (ihF : f.Parsed A limit)
    (ihMore : more.Parsed A limit) : (Tree.term f more).Parsed A limit := by
  intro fuel count x v rest enough isValue room follows
  obtain ⟨fuel, rfl⟩ := Nat.exists_eq_add_of_le' ((size_pos _).trans enough)
  rw [Tree.calls] at room
  rw [size] at enough
  obtain ⟨y, isY, isValue⟩ := Option.bind_eq_some_iff.1 isValue
  have first := ihF fuel (count + 1) x _ (more.tokens ++ rest)
    (by omega) isY (by omega) (follows_moreFactors more follows)
  have second := ihMore fuel (count + 1 + f.calls) y _ rest (by omega) isValue (by omega)
    follows
  change parseTerm A limit (fuel + 1) _ _ = _
  rw [parseTerm_succ]
  dsimp only [tokens]
  rw [if_neg (counted (Nat.add_assoc 1 _ _ ▸ room)), List.append_assoc, bind_eq_parsed,
    Tree.calls, ← Nat.add_assoc, ← Nat.add_assoc]
  exact ⟨y, _, _, first, second⟩

theorem noTerm : (Tree.noTerm : Tree V .moreTerms).Parsed A limit := by
  intro fuel count x v rest enough isValue _ follows
  obtain ⟨fuel, rfl⟩ := Nat.exists_eq_add_of_le' ((size_pos _).trans enough)
  cases isValue
  change expressionLoop A limit (fuel + 1) _ _ _ = _
  rw [expressionLoop_succ]
  dsimp only [tokens, List.nil_append]
  cases rest with
  | nil => rfl
  | cons token rest =>
      have isNone : token.addOp = none := follows.2.2
      dsimp only
      rw [isNone]
      rfl

theorem moreTerms (op : AddOp) {t : Tree V .term} {more : Tree V .moreTerms}
    (ihT : t.Parsed A limit) (ihMore : more.Parsed A limit) :
    (Tree.moreTerms op t more).Parsed A limit := by
  intro fuel count x v rest enough isValue room follows
  obtain ⟨fuel, rfl⟩ := Nat.exists_eq_add_of_le' ((size_pos _).trans enough)
  rw [Tree.calls] at room
  rw [size] at enough
  obtain ⟨y, isY, isValue⟩ := Option.bind_eq_some_iff.1 isValue
  obtain ⟨z, applied, isValue⟩ := Option.bind_eq_some_iff.1 isValue
  have first := ihT fuel count x _ (more.tokens ++ rest)
    (by omega) isY (by omega) (follows_moreTerms more follows)
  have second := ihMore fuel (count + t.calls) z _ rest (by omega) isValue (by omega) follows
  change expressionLoop A limit (fuel + 1) _ _ _ = _
  rw [expressionLoop_succ]
  dsimp only [tokens, List.cons_append]
  rw [addOp_token, List.append_assoc, Tree.calls, ← Nat.add_assoc]
  dsimp only
  rw [bind_eq_parsed]
  refine ⟨y, _, _, first, ?_⟩
  rw [applied]
  exact second

theorem expression {t : Tree V .term} {more : Tree V .moreTerms} (ihT : t.Parsed A limit)
    (ihMore : more.Parsed A limit) : (Tree.expression t more).Parsed A limit := by
  intro fuel count x v rest enough isValue room follows
  obtain ⟨fuel, rfl⟩ := Nat.exists_eq_add_of_le' ((size_pos _).trans enough)
  rw [Tree.calls] at room
  rw [size] at enough
  obtain ⟨y, isY, isValue⟩ := Option.bind_eq_some_iff.1 isValue
  have first := ihT fuel (count + 1) x _ (more.tokens ++ rest)
    (by omega) isY (by omega) (follows_moreTerms more follows)
  have second := ihMore fuel (count + 1 + t.calls) y _ rest (by omega) isValue (by omega)
    follows
  change parseExpression A limit (fuel + 1) _ _ = _
  rw [parseExpression_succ]
  dsimp only [tokens]
  rw [if_neg (counted (Nat.add_assoc 1 _ _ ▸ room)), List.append_assoc, bind_eq_parsed,
    Tree.calls, ← Nat.add_assoc, ← Nat.add_assoc]
  exact ⟨y, _, _, first, second⟩

end Tree.Parsed

/-- **What is derived is parsed.** -/
theorem Tree.parsed {level : Level} (tree : Tree V level) : tree.Parsed A limit := by
  induction tree with
  | integer value => exact .integer value
  | parens e ih => exact .parens ih
  | call f e ih => exact .call f ih
  | plus u ih => exact .plus ih
  | minus u ih => exact .minus ih
  | operand p ih => exact .operand ih
  | base u ih => exact .base ih
  | power u f ihU ihF => exact .power ihU ihF
  | noFactor => exact .noFactor
  | moreFactors op f more ihF ihMore => exact .moreFactors op ihF ihMore
  | term f more ihF ihMore => exact .term ihF ihMore
  | noTerm => exact .noTerm
  | moreTerms op t more ihT ihMore => exact .moreTerms op ihT ihMore
  | expression t more ihT ihMore => exact .expression ihT ihMore

/-! ## The parser stops -/

theorem bind_ne_running {outcome : Outcome V} {next : V → List (Token V) → Nat → Outcome V}
    (stops : outcome ≠ .running)
    (stops' : ∀ v rest count, outcome = .parsed v rest count → next v rest count ≠ .running) :
    outcome.bind next ≠ .running := by
  cases outcome with
  | running => exact absurd rfl stops
  | rejected => exact nofun
  | parsed v rest count => exact stops' v rest count rfl

theorem closed_ne_running {outcome : Outcome V} (stops : outcome ≠ .running) :
    outcome.closed ≠ .running := by
  refine bind_ne_running stops fun v rest count _ => ?_
  split <;> exact nofun

theorem rejected_ne_running : (Outcome.rejected : Outcome V) ≠ .running := by
  rintro ⟨⟩

theorem parsed_ne_running (value : V) (rest : List (Token V)) (count : Nat) :
    Outcome.parsed value rest count ≠ .running := by
  rintro ⟨⟩

theorem ofOption_ne_running (value : Option V) (rest : List (Token V)) (count : Nat) :
    Outcome.ofOption value rest count ≠ .running := by
  cases value <;> exact nofun

/-- Only the loops may read nothing. -/
theorem Tree.tokens_pos {level : Level} (tree : Tree V level) (notFactors : level ≠ .moreFactors)
    (notTerms : level ≠ .moreTerms) : 0 < tree.tokens.length := by
  induction tree with
  | integer | parens | call | plus | minus => exact Nat.succ_pos _
  | operand p ih => exact ih nofun nofun
  | base u ih => exact ih nofun nofun
  | power u f ihU ihF =>
      rw [tokens, List.length_append]
      exact Nat.add_pos_left (ihU nofun nofun) _
  | noFactor => exact absurd rfl notFactors
  | moreFactors => exact absurd rfl notFactors
  | noTerm => exact absurd rfl notTerms
  | moreTerms => exact absurd rfl notTerms
  | term f more ihF ihMore =>
      rw [tokens, List.length_append]
      exact Nat.add_pos_left (ihF nofun nofun) _
  | expression t more ihT ihMore =>
      rw [tokens, List.length_append]
      exact Nat.add_pos_left (ihT nofun nofun) _

theorem Derives.shorter {level : Level} {value : Tree V level → Option V}
    {tokens rest : List (Token V)} {count count' : Nat} {v : V}
    (derives : Derives level value limit tokens count v rest count')
    (notFactors : level ≠ .moreFactors) (notTerms : level ≠ .moreTerms) :
    rest.length < tokens.length := by
  obtain ⟨tree, rfl, -⟩ := derives
  rw [List.length_append]
  exact Nat.lt_add_of_pos_left (tree.tokens_pos notFactors notTerms)

/-- The steps that suffice for so many tokens. -/
structure Stops (A : Arithmetic V) (limit fuel : Nat) : Prop where
  primary : ∀ tokens count, 8 * tokens.length + 1 ≤ fuel →
    parsePrimary A limit fuel tokens count ≠ .running
  unary : ∀ tokens count, 8 * tokens.length + 2 ≤ fuel →
    parseUnary A limit fuel tokens count ≠ .running
  factor : ∀ tokens count, 8 * tokens.length + 3 ≤ fuel →
    parseFactor A limit fuel tokens count ≠ .running
  moreFactors : ∀ x tokens count, 8 * tokens.length + 1 ≤ fuel →
    termLoop A limit fuel x tokens count ≠ .running
  term : ∀ tokens count, 8 * tokens.length + 4 ≤ fuel →
    parseTerm A limit fuel tokens count ≠ .running
  moreTerms : ∀ x tokens count, 8 * tokens.length + 1 ≤ fuel →
    expressionLoop A limit fuel x tokens count ≠ .running
  expression : ∀ tokens count, 8 * tokens.length + 5 ≤ fuel →
    parseExpression A limit fuel tokens count ≠ .running

namespace Stops

variable {tokens : List (Token V)} {count : Nat} {x : V}

theorem primary_succ (ih : Stops A limit fuel) (enough : 8 * tokens.length + 1 ≤ fuel + 1) :
    parsePrimary A limit (fuel + 1) tokens count ≠ .running := by
  rw [parsePrimary_succ]
  split
  · exact rejected_ne_running
  · split
    · exact parsed_ne_running _ _ _
    · rw [List.length_cons] at enough
      exact closed_ne_running (ih.expression _ _ (by omega))
    · rw [List.length_cons, List.length_cons] at enough
      exact bind_ne_running (closed_ne_running (ih.expression _ _ (by omega)))
        fun _ _ _ _ => ofOption_ne_running _ _ _
    · exact rejected_ne_running

theorem unary_succ (ih : Stops A limit fuel) (enough : 8 * tokens.length + 2 ≤ fuel + 1) :
    parseUnary A limit (fuel + 1) tokens count ≠ .running := by
  rw [parseUnary_succ]
  split
  · exact rejected_ne_running
  · split
    · exact rejected_ne_running
    · rw [List.length_cons] at enough
      exact ih.unary _ _ (by omega)
    · rw [List.length_cons] at enough
      exact bind_ne_running (ih.unary _ _ (by omega)) fun _ _ _ _ => parsed_ne_running _ _ _
    · exact ih.primary _ _ (by omega)

theorem factor_succ (ih : Stops A limit fuel) (enough : 8 * tokens.length + 3 ≤ fuel + 1) :
    parseFactor A limit (fuel + 1) tokens count ≠ .running := by
  have reads := sound A limit fuel
  rw [parseFactor_succ]
  split
  · exact rejected_ne_running
  · refine bind_ne_running (ih.unary _ _ (by omega)) fun value rest count read => ?_
    have shorter := (reads.unary _ _ _ _ _ read).shorter (by decide) (by decide)
    split
    · rw [List.length_cons] at shorter
      exact bind_ne_running (ih.factor _ _ (by omega))
        fun _ _ _ _ => ofOption_ne_running _ _ _
    · exact parsed_ne_running _ _ _

theorem moreFactors_succ (ih : Stops A limit fuel) (enough : 8 * tokens.length + 1 ≤ fuel + 1) :
    termLoop A limit (fuel + 1) x tokens count ≠ .running := by
  have reads := sound A limit fuel
  rw [termLoop_succ]
  split
  · exact parsed_ne_running _ _ _
  · rw [List.length_cons] at enough
    split
    · exact parsed_ne_running _ _ _
    · refine bind_ne_running (ih.factor _ _ (by omega)) fun y rest count read => ?_
      have shorter := (reads.factor _ _ _ _ _ read).shorter (by decide) (by decide)
      split
      · exact rejected_ne_running
      · exact ih.moreFactors _ _ _ (by omega)

theorem term_succ (ih : Stops A limit fuel) (enough : 8 * tokens.length + 4 ≤ fuel + 1) :
    parseTerm A limit (fuel + 1) tokens count ≠ .running := by
  have reads := sound A limit fuel
  rw [parseTerm_succ]
  split
  · exact rejected_ne_running
  · refine bind_ne_running (ih.factor _ _ (by omega)) fun y rest count read => ?_
    have shorter := (reads.factor _ _ _ _ _ read).shorter (by decide) (by decide)
    exact ih.moreFactors _ _ _ (by omega)

theorem moreTerms_succ (ih : Stops A limit fuel) (enough : 8 * tokens.length + 1 ≤ fuel + 1) :
    expressionLoop A limit (fuel + 1) x tokens count ≠ .running := by
  have reads := sound A limit fuel
  rw [expressionLoop_succ]
  split
  · exact parsed_ne_running _ _ _
  · rw [List.length_cons] at enough
    split
    · exact parsed_ne_running _ _ _
    · refine bind_ne_running (ih.term _ _ (by omega)) fun y rest count read => ?_
      have shorter := (reads.term _ _ _ _ _ read).shorter (by decide) (by decide)
      split
      · exact rejected_ne_running
      · exact ih.moreTerms _ _ _ (by omega)

theorem expression_succ (ih : Stops A limit fuel) (enough : 8 * tokens.length + 5 ≤ fuel + 1) :
    parseExpression A limit (fuel + 1) tokens count ≠ .running := by
  have reads := sound A limit fuel
  rw [parseExpression_succ]
  split
  · exact rejected_ne_running
  · refine bind_ne_running (ih.term _ _ (by omega)) fun y rest count read => ?_
    have shorter := (reads.term _ _ _ _ _ read).shorter (by decide) (by decide)
    exact ih.moreTerms _ _ _ (by omega)

end Stops

/-- **The procedures stop**, given the steps. -/
theorem stops (A : Arithmetic V) (limit fuel : Nat) : Stops A limit fuel := by
  induction fuel with
  | zero =>
      refine ⟨?_, ?_, ?_, ?_, ?_, ?_, ?_⟩
      all_goals
        intros
        omega
  | succ fuel ih =>
      exact {
        primary := fun _ _ enough => ih.primary_succ enough
        unary := fun _ _ enough => ih.unary_succ enough
        factor := fun _ _ enough => ih.factor_succ enough
        moreFactors := fun _ _ _ enough => ih.moreFactors_succ enough
        term := fun _ _ enough => ih.term_succ enough
        moreTerms := fun _ _ _ enough => ih.moreTerms_succ enough
        expression := fun _ _ enough => ih.expression_succ enough }

end

/-! ## Main result -/

/-- A derivation of these tokens, and the only one. -/
def IsDerivation (tokens : List (Token V)) (tree : Tree V .expression) : Prop :=
  tree.tokens = tokens ∧ ∀ other : Tree V .expression, other.tokens = tokens → other = tree

theorem isDerivation_tokens (tree : Tree V .expression) : IsDerivation tree.tokens tree := by
  refine ⟨rfl, fun other same => ?_⟩
  have atEnd : Follows .expression ([] : List (Token V)) := ⟨nofun, rfl, rfl⟩
  have same' : other.tokens ++ [] = tree.tokens ++ [] := by rw [same]
  exact (other.determined tree _ _ same' atEnd atEnd).1

/-- The steps that suffice for a sequence of tokens: until the calculator stops, and to read its
derivation if there is one. -/
theorem exists_enough (tokens : List (Token V)) :
    ∃ enough, 8 * tokens.length + 5 ≤ enough ∧
      ∀ tree : Tree V .expression, tree.tokens = tokens → tree.size ≤ enough := by
  by_cases derivable : ∃ tree : Tree V .expression, tree.tokens = tokens
  · obtain ⟨tree, derived⟩ := derivable
    refine ⟨max (8 * tokens.length + 5) tree.size, Nat.le_max_left _ _, fun other same => ?_⟩
    subst derived
    rw [(isDerivation_tokens tree).2 other same]
    exact Nat.le_max_right _ _
  · exact ⟨_, le_rfl, fun tree derived => absurd ⟨tree, derived⟩ derivable⟩

/-- What the calculator returns is the value of the derivation. -/
theorem derivation_of_calculateTokens {A : Arithmetic V} {fuel : Nat} {tokens : List (Token V)}
    {v : V} (result : calculateTokens A fuel tokens = some (some v)) :
    ∃ tree : Tree V .expression, IsDerivation tokens tree ∧ tree.value A = some v ∧
      tree.calls ≤ kMaxOperations := by
  rw [calculateTokens] at result
  split at result
  · cases result
  · cases result
  · rename_i value rest count read
    split at result
    · rename_i atEnd
      cases result
      obtain rfl := List.isEmpty_iff.1 atEnd
      obtain ⟨tree, rfl, isValue, rfl, most⟩ :=
        (sound A kMaxOperations fuel).expression _ _ _ _ _ read
      rw [List.append_nil]
      rw [Nat.zero_add] at most
      exact ⟨tree, isDerivation_tokens tree, isValue, most⟩
    · cases result

/-- The value of a derivation is what the calculator returns, given the steps. -/
theorem calculateTokens_of_derivation {A : Arithmetic V} {fuel : Nat} {tree : Tree V .expression}
    {v : V} (enough : tree.size ≤ fuel) (isValue : tree.value A = some v)
    (most : tree.calls ≤ kMaxOperations) :
    calculateTokens A fuel tree.tokens = some (some v) := by
  have atEnd : Follows .expression ([] : List (Token V)) := ⟨nofun, rfl, rfl⟩
  have read : parseExpression A kMaxOperations fuel (tree.tokens ++ []) 0 = _ :=
    tree.parsed fuel 0 v v [] enough isValue ((Nat.zero_add _).trans_le most) atEnd
  rw [List.append_nil] at read
  rw [calculateTokens, read]
  rfl

/-- **The calculator always returns**, and it returns a value exactly if it is that of the
derivation of the tokens, which no step rejects and which takes no more calls than the limit. -/
theorem calculateTokens_iff (A : Arithmetic V) (tokens : List (Token V)) :
    ∃ enough, ∀ fuel ≥ enough, ∃ result, calculateTokens A fuel tokens = some result ∧
      ∀ v, result = some v ↔ ∃ tree : Tree V .expression, IsDerivation tokens tree ∧
        tree.value A = some v ∧ tree.calls ≤ kMaxOperations := by
  obtain ⟨enough, stop, readable⟩ := exists_enough tokens
  refine ⟨enough, fun fuel most => ?_⟩
  have returns : ∃ result, calculateTokens A fuel tokens = some result := by
    have stopped := (stops A kMaxOperations fuel).expression tokens 0 (stop.trans most)
    rw [calculateTokens]
    split
    · exact absurd ‹_› stopped
    · exact ⟨_, rfl⟩
    · exact ⟨_, rfl⟩
  obtain ⟨result, returned⟩ := returns
  refine ⟨result, returned, fun v => ⟨?_, ?_⟩⟩
  · rintro rfl
    exact derivation_of_calculateTokens returned
  · rintro ⟨tree, ⟨rfl, -⟩, isValue, fits⟩
    have returned' := calculateTokens_of_derivation ((readable tree rfl).trans most) isValue fits
    exact Option.some.inj (returned.symm.trans returned')

end Mozkey.Rewriter.Calculator
