import Mathlib.Data.List.Basic

/-!
# The calculator

The calculator reads a sequence of tokens by recursive descent: an expression is a sum of terms, a
term a product of factors, a factor a power of unary operands.  Every procedure first counts itself
against a limit, and gives up beyond it.

The arithmetic is a parameter.  Where the calculator rejects a result, here the operation is
partial.
-/

namespace Mozkey.Rewriter.Calculator

/-- The functions among the `TokenType`s. -/
inductive Function
  | log
  | ln
  | exp
  | sqrt
  | sin
  | cos
  | tan
  | abs
  deriving DecidableEq, Repr

/-- `Token`; only an integer has a value that is read. -/
inductive Token (V : Type)
  | integer (value : V)
  | plus
  | minus
  | times
  | divide
  | mod
  | pow
  | lp
  | rp
  | function (f : Function)
  deriving DecidableEq, Repr

/-- The operators that the loop of `ParseTerm` takes. -/
inductive MulOp
  | times
  | divide
  | mod
  deriving DecidableEq, Repr

/-- The operators that the loop of `ParseExpression` takes. -/
inductive AddOp
  | plus
  | minus
  deriving DecidableEq, Repr

variable {V : Type}

def Token.mulOp : Token V → Option MulOp
  | .times => some .times
  | .divide => some .divide
  | .mod => some .mod
  | _ => none

def Token.addOp : Token V → Option AddOp
  | .plus => some .plus
  | .minus => some .minus
  | _ => none

/-! ## Arithmetic -/

/-- What is used of `double`. -/
structure Arithmetic (V : Type) where
  isNegative : V → Bool
  isZero : V → Bool
  isFinite : V → Bool
  negate : V → V
  apply : Function → V → V
  pow : V → V → V
  mul : V → V → V
  div : V → V → V
  fmod : V → V → V
  add : V → V → V
  sub : V → V → V

namespace Arithmetic

variable (A : Arithmetic V)

def finite (x : V) : Option V := if A.isFinite x then some x else none

/-- A function of an argument; the square root of a negative one is rejected. -/
def call (f : Function) (x : V) : Option V :=
  if f = .sqrt ∧ A.isNegative x = true then none else some (A.apply f x)

def power (x y : V) : Option V := A.finite (A.pow x y)

/-- One round of the loop of `ParseTerm`. -/
def multiply (op : MulOp) (x y : V) : Option V :=
  match op with
  | .times => A.finite (A.mul x y)
  | .divide => if A.isZero y then none else A.finite (A.div x y)
  | .mod => if A.isZero y then none else A.finite (A.fmod x y)

/-- One round of the loop of `ParseExpression`. -/
def sum (op : AddOp) (x y : V) : Option V :=
  match op with
  | .plus => A.finite (A.add x y)
  | .minus => A.finite (A.sub x y)

end Arithmetic

/-! ## The parser -/

/-- What a procedure does in a number of steps: it is still running, it gives no value, or it gives
one, with the tokens that are left and the operations that are counted. -/
inductive Outcome (V : Type)
  | running
  | rejected
  | parsed (value : V) (rest : List (Token V)) (count : Nat)
  deriving DecidableEq, Repr

namespace Outcome

def bind (outcome : Outcome V) (next : V → List (Token V) → Nat → Outcome V) : Outcome V :=
  match outcome with
  | running => running
  | rejected => rejected
  | parsed value rest count => next value rest count

/-- A value that may be rejected. -/
def ofOption (value : Option V) (rest : List (Token V)) (count : Nat) : Outcome V :=
  match value with
  | none => rejected
  | some value => parsed value rest count

/-- The right parenthesis. -/
def closed (outcome : Outcome V) : Outcome V :=
  outcome.bind fun value rest count =>
    match rest with
    | .rp :: rest => parsed value rest count
    | _ => rejected

end Outcome

section
variable (A : Arithmetic V) (limit : Nat)

mutual

/-- `ParsePrimary`. -/
def parsePrimary : Nat → List (Token V) → Nat → Outcome V
  | 0, _, _ => .running
  | fuel + 1, tokens, count =>
      if count + 1 > limit then .rejected
      else
        match tokens with
        | .integer value :: rest => .parsed value rest (count + 1)
        | .lp :: rest => (parseExpression fuel rest (count + 1)).closed
        | .function f :: .lp :: rest =>
            (parseExpression fuel rest (count + 1)).closed.bind fun arg rest count =>
              .ofOption (A.call f arg) rest count
        | _ => .rejected

/-- `ParseUnary`. -/
def parseUnary : Nat → List (Token V) → Nat → Outcome V
  | 0, _, _ => .running
  | fuel + 1, tokens, count =>
      if count + 1 > limit then .rejected
      else
        match tokens with
        | [] => .rejected
        | .plus :: rest => parseUnary fuel rest (count + 1)
        | .minus :: rest =>
            (parseUnary fuel rest (count + 1)).bind fun rhs rest count =>
              .parsed (A.negate rhs) rest count
        | tokens => parsePrimary fuel tokens (count + 1)

/-- `ParseFactor`. -/
def parseFactor : Nat → List (Token V) → Nat → Outcome V
  | 0, _, _ => .running
  | fuel + 1, tokens, count =>
      if count + 1 > limit then .rejected
      else
        (parseUnary fuel tokens (count + 1)).bind fun value rest count =>
          match rest with
          | .pow :: rest =>
              (parseFactor fuel rest count).bind fun rhs rest count =>
                .ofOption (A.power value rhs) rest count
          | rest => .parsed value rest count

/-- The loop of `ParseTerm`. -/
def termLoop : Nat → V → List (Token V) → Nat → Outcome V
  | 0, _, _, _ => .running
  | fuel + 1, value, tokens, count =>
      match tokens with
      | [] => .parsed value [] count
      | token :: rest =>
          match token.mulOp with
          | none => .parsed value (token :: rest) count
          | some op =>
              (parseFactor fuel rest count).bind fun rhs rest count =>
                match A.multiply op value rhs with
                | none => .rejected
                | some value => termLoop fuel value rest count

/-- `ParseTerm`. -/
def parseTerm : Nat → List (Token V) → Nat → Outcome V
  | 0, _, _ => .running
  | fuel + 1, tokens, count =>
      if count + 1 > limit then .rejected
      else
        (parseFactor fuel tokens (count + 1)).bind fun value rest count =>
          termLoop fuel value rest count

/-- The loop of `ParseExpression`. -/
def expressionLoop : Nat → V → List (Token V) → Nat → Outcome V
  | 0, _, _, _ => .running
  | fuel + 1, value, tokens, count =>
      match tokens with
      | [] => .parsed value [] count
      | token :: rest =>
          match token.addOp with
          | none => .parsed value (token :: rest) count
          | some op =>
              (parseTerm fuel rest count).bind fun rhs rest count =>
                match A.sum op value rhs with
                | none => .rejected
                | some value => expressionLoop fuel value rest count

/-- `ParseExpression`. -/
def parseExpression : Nat → List (Token V) → Nat → Outcome V
  | 0, _, _ => .running
  | fuel + 1, tokens, count =>
      if count + 1 > limit then .rejected
      else
        (parseTerm fuel tokens (count + 1)).bind fun value rest count =>
          expressionLoop fuel value rest count

end

/-! What the procedures do with one more step. -/

theorem parsePrimary_succ (fuel : Nat) (tokens : List (Token V)) (count : Nat) :
    parsePrimary A limit (fuel + 1) tokens count =
      if count + 1 > limit then .rejected
      else
        match tokens with
        | .integer value :: rest => .parsed value rest (count + 1)
        | .lp :: rest => (parseExpression A limit fuel rest (count + 1)).closed
        | .function f :: .lp :: rest =>
            (parseExpression A limit fuel rest (count + 1)).closed.bind fun arg rest count =>
              .ofOption (A.call f arg) rest count
        | _ => .rejected :=
  parsePrimary.eq_def A limit (fuel + 1) tokens count

theorem parseUnary_succ (fuel : Nat) (tokens : List (Token V)) (count : Nat) :
    parseUnary A limit (fuel + 1) tokens count =
      if count + 1 > limit then .rejected
      else
        match tokens with
        | [] => .rejected
        | .plus :: rest => parseUnary A limit fuel rest (count + 1)
        | .minus :: rest =>
            (parseUnary A limit fuel rest (count + 1)).bind fun rhs rest count =>
              .parsed (A.negate rhs) rest count
        | tokens => parsePrimary A limit fuel tokens (count + 1) :=
  parseUnary.eq_def A limit (fuel + 1) tokens count

theorem parseFactor_succ (fuel : Nat) (tokens : List (Token V)) (count : Nat) :
    parseFactor A limit (fuel + 1) tokens count =
      if count + 1 > limit then .rejected
      else
        (parseUnary A limit fuel tokens (count + 1)).bind fun value rest count =>
          match rest with
          | .pow :: rest =>
              (parseFactor A limit fuel rest count).bind fun rhs rest count =>
                .ofOption (A.power value rhs) rest count
          | rest => .parsed value rest count :=
  parseFactor.eq_def A limit (fuel + 1) tokens count

theorem termLoop_succ (fuel : Nat) (value : V) (tokens : List (Token V)) (count : Nat) :
    termLoop A limit (fuel + 1) value tokens count =
      match tokens with
      | [] => .parsed value [] count
      | token :: rest =>
          match token.mulOp with
          | none => .parsed value (token :: rest) count
          | some op =>
              (parseFactor A limit fuel rest count).bind fun rhs rest count =>
                match A.multiply op value rhs with
                | none => .rejected
                | some value => termLoop A limit fuel value rest count :=
  termLoop.eq_def A limit (fuel + 1) value tokens count

theorem parseTerm_succ (fuel : Nat) (tokens : List (Token V)) (count : Nat) :
    parseTerm A limit (fuel + 1) tokens count =
      if count + 1 > limit then .rejected
      else
        (parseFactor A limit fuel tokens (count + 1)).bind fun value rest count =>
          termLoop A limit fuel value rest count :=
  parseTerm.eq_def A limit (fuel + 1) tokens count

theorem expressionLoop_succ (fuel : Nat) (value : V) (tokens : List (Token V)) (count : Nat) :
    expressionLoop A limit (fuel + 1) value tokens count =
      match tokens with
      | [] => .parsed value [] count
      | token :: rest =>
          match token.addOp with
          | none => .parsed value (token :: rest) count
          | some op =>
              (parseTerm A limit fuel rest count).bind fun rhs rest count =>
                match A.sum op value rhs with
                | none => .rejected
                | some value => expressionLoop A limit fuel value rest count :=
  expressionLoop.eq_def A limit (fuel + 1) value tokens count

theorem parseExpression_succ (fuel : Nat) (tokens : List (Token V)) (count : Nat) :
    parseExpression A limit (fuel + 1) tokens count =
      if count + 1 > limit then .rejected
      else
        (parseTerm A limit fuel tokens (count + 1)).bind fun value rest count =>
          expressionLoop A limit fuel value rest count :=
  parseExpression.eq_def A limit (fuel + 1) tokens count

end

/-- How many operations a calculation may take. -/
def kMaxOperations : Nat := 256

/-- `CalculateTokens`; `none` while it is running. -/
def calculateTokens (A : Arithmetic V) (fuel : Nat) (tokens : List (Token V)) : Option (Option V) :=
  match parseExpression A kMaxOperations fuel tokens 0 with
  | .running => none
  | .rejected => some none
  | .parsed value rest _ => some (if rest.isEmpty then some value else none)

end Mozkey.Rewriter.Calculator
