import Scriptlet.Tree.Basic

/-!
# Equality of trees

Two trees are the same when they have the same shape and the tokens kept in their nodes are the
same, lines included. Literals compare by value, so a tree that holds NaN differs from itself.
-/

namespace Scriptlet

/-- Equality of literals by value. -/
def Literal.same : Literal → Literal → Bool
  | .number x, .number y => x == y
  | .string s, .string t => s == t
  | .boolean a, .boolean b => a == b
  | .null, .null => true
  | _, _ => false

namespace Expr

mutual

/-- Equality of expressions. -/
def same : Expr → Expr → Bool
  | .literal a, .literal b => a.same b
  | .var s, .var t => s.same t
  | .assign s a, .assign t b => s.same t && same a b
  | .unary s a, .unary t b => s.same t && same a b
  | .binary a s b, .binary c t d => same a c && s.same t && same b d
  | .logical a s b, .logical c t d => same a c && s.same t && same b d
  | .group a, .group b => same a b
  | .call a s as, .call b t bs => same a b && s.same t && sameEach as bs
  | _, _ => false

/-- Equality of lists of expressions. -/
def sameEach : List Expr → List Expr → Bool
  | [], [] => true
  | a :: as, b :: bs => same a b && sameEach as bs
  | _, _ => false

end

/-- Equality of optional expressions. -/
def sameOption : Option Expr → Option Expr → Bool
  | some a, some b => a.same b
  | none, none => true
  | _, _ => false

end Expr

/-- Equality of token lists. -/
def Token.sameEach : List Token → List Token → Bool
  | [], [] => true
  | s :: ss, t :: ts => s.same t && Token.sameEach ss ts
  | _, _ => false

namespace Stmt

mutual

/-- Equality of statements. -/
def same : Stmt → Stmt → Bool
  | .expression a, .expression b => a.same b
  | .print a, .print b => a.same b
  | .var s a, .var t b => s.same t && Expr.sameOption a b
  | .block as, .block bs => sameEach as bs
  | .function s ps as, .function t qs bs =>
    s.same t && Token.sameEach ps qs && sameEach as bs
  | .ifElse c a a', .ifElse d b b' => c.same d && same a b && sameOption a' b'
  | .whileLoop c a, .whileLoop d b => c.same d && same a b
  | .forLoop i c e a, .forLoop j d f b =>
    sameOption i j && Expr.sameOption c d && Expr.sameOption e f && same a b
  | .ret s a, .ret t b => s.same t && Expr.sameOption a b
  | _, _ => false

/-- Equality of lists of statements. -/
def sameEach : List Stmt → List Stmt → Bool
  | [], [] => true
  | a :: as, b :: bs => same a b && sameEach as bs
  | _, _ => false

/-- Equality of optional statements. -/
def sameOption : Option Stmt → Option Stmt → Bool
  | some a, some b => same a b
  | none, none => true
  | _, _ => false

end

end Stmt

end Scriptlet
