import ScriptPress.Simplify.Pass

/-! # What simplification can do -/

namespace ScriptPress

open Step

namespace Kind

def isList : Kind → Bool
  | module | block => true
  | _ => false

def hasBody : Kind → Bool
  | doWhile | forIn | label _ | forLoop | ifElse => true
  | _ => false

def handsOver : Kind → Bool
  | expression | .return | throw => true
  | _ => false

def discards : Kind → (before after : Nat) → Bool
  | expression, 0, 0 => true
  | sequence, _, _ + 1 => true
  | forLoop, 0, 3 | forLoop, 2, 1 => true
  | _, _, _ => false

end Kind

namespace Tree

variable {α : Type}

inductive Rewrites (known : WellKnown) : Tree (Option α) → Step α → Prop
  -- Statement lists
  | dropEmpty {m k l r} {c : Tree (Option α)} (hk : k.isList) (hc : c.isEmpty) :
    Rewrites known (node m k (l ++ c :: r)) ⟨node m k (l ++ r), [c]⟩
  | splice {m k l r} {c : Tree (Option α)} (hk : k.isList)
      (hc : c.isDissolvable) :
    Rewrites known (node m k (l ++ c :: r)) ⟨node m k (l ++ (c.children ++ r)), [c.emptied]⟩
  | mergeDeclarations {m k l r a b xs ys} (hk : k.isList) : Rewrites known
      (node m k (l ++ node a .varStatement xs :: node b .varStatement ys :: r))
      ⟨node m k (l ++ node a .varStatement (xs ++ ys) :: r), [node b .varStatement []]⟩
  | mergeExpressions {m k l r a b x y} (hk : k.isList) :
    Rewrites known (node m k (l ++ node a .expression [x] :: node b .expression [y] :: r))
      ⟨node m k (l ++ node a .expression [(comma x y).tree] :: r),
        node b .expression [] :: (comma x y).detached⟩
  | mergeIntoValue {m k l r a b x y v} (hk : k.isList)
      (hv : v = .return ∨ v = .throw) :
    Rewrites known (node m k (l ++ node a .expression [x] :: node b v [y] :: r))
      ⟨node m k (l ++ node b v [(comma x y).tree] :: r),
        node a .expression [] :: (comma x y).tree.husk :: (comma x y).detached⟩
  | fillSetup {m k l r a b x setup others} (hk : k.isList) (hs : setup.isEmpty) :
    Rewrites known
      (node m k (l ++ node a .expression [x] :: node b .forLoop (setup :: others) :: r))
      ⟨node m k (l ++ node b .forLoop (x :: others) :: r), [setup, node a .expression []]⟩
  | mergeIntoSetup {m k l r a b x setup others} (hk : k.isList)
      (hs : setup.kind.isExpression) : Rewrites known
      (node m k (l ++ node a .expression [x] :: node b .forLoop (setup :: others) :: r))
      ⟨node m k (l ++ node b .forLoop ((comma x setup).tree :: others) :: r),
        node a .expression [] :: (comma x setup).tree.husk :: (comma x setup).detached⟩
  -- Values that nobody uses
  | reduce {m k l r} {c : Tree (Option α)} {s : Step α}
      (hk : k.discards l.length r.length) (hc : c.kind.isExpression)
      (hs : c.discarded = .ok (.reduced s)) :
    Rewrites known (node m k (l ++ c :: r)) ⟨node m k (l ++ s.tree :: r), s.detached⟩
  | dropStatement {m} {c : Tree (Option α)} (hc : c.discarded = .ok .nothing) :
    Rewrites known (node m .expression [c]) (leaf m .empty [c])
  | dropElement {m l r} {c : Tree (Option α)} (hr : r ≠ []) (hc : c.discarded = .ok .nothing) :
    Rewrites known (node m .sequence (l ++ c :: r)) ⟨node m .sequence (l ++ r), [c]⟩
  | dropClause {m l r} {c : Tree (Option α)}
      (hk : Kind.forLoop.discards l.length r.length) (he : c.kind.isExpression)
      (hc : c.discarded = .ok .nothing) : Rewrites known (node m .forLoop (l ++ c :: r))
      ⟨node m .forLoop (l ++ node c.mark .empty [] :: r), c.children⟩
  -- Sequences
  | flatten {m a l cs r} : Rewrites known (node m .sequence (l ++ node a .sequence cs :: r))
      ⟨node m .sequence (l ++ (cs ++ r)), [node a .sequence []]⟩
  | single {m} {x : Tree (Option α)} : Rewrites known (node m .sequence [x]) (become m x [])
  -- Operators and calls
  | foldUnary {m op x k} (h : unaryValue? op x = .ok (some k)) :
    Rewrites known (node m (.unary op) [x]) (leaf m k [x])
  | tripleNot {m a} {x : Tree (Option α)} (hx : x.isNot) :
    Rewrites known (node m (.unary .not) [node a (.unary .not) [x]])
      (become m x [node a (.unary .not) []])
  | logical {m op x y s} (hop : op.isLogical)
      (h : logical m op x y [] = some s) : Rewrites known (node m (.binary op) [x, y]) s
  | foldBinary {m op k} {x y : Tree (Option α)}
      (hx : x.kind.isLiteral) (hy : y.kind.isLiteral)
      (h : Kind.foldBinary op x.kind y.kind = some k) :
    Rewrites known (node m (.binary op) [x, y]) (leaf m k [x, y])
  | power {m a b base exponent} {p q : Tree (Option α)} (hp : p.kind = .number base)
      (hq : q.kind = .number exponent) : Rewrites known
      (node m .call [node a (.member known.pow) [node b (.identifier known.math) []], p, q])
      (leaf m (.number (Number.power base exponent))
        [node a (.member known.pow) [node b (.identifier known.math) []], p, q])
  -- Concatenations
  | appendLiteral {m a b x head tail} {y : Tree (Option α)} (h : y.kind.text? = some tail) :
    Rewrites known (node m (.binary .add) [node a (.binary .add) [x, node b (.string head) []], y])
      ⟨node m (.binary .add) [x, node b (.string (head ++ tail)) []], [node a .empty [], y]⟩
  | dropEmptyTail {m} {x y : Tree (Option α)} (hy : y.kind = .string "")
      (hx : x.isCertainlyString = .ok true) :
    Rewrites known (node m (.binary .add) [x, y]) (become m x [y])
  | moveEmptyHead {m a x text} {h y : Tree (Option α)} (hh : h.kind = .string "")
      (hy : y.kind.text? = some text) :
    Rewrites known (node m (.binary .add) [node a (.binary .add) [h, x], y])
      ⟨node m (.binary .add) [x, node y.mark (.string text) []],
        node a (.binary .add) [h] :: y.children⟩
  | prependLiteral {m a b x head tail} {y : Tree (Option α)} (hy : y.kind.text? = some head) :
    Rewrites known (node m (.binary .add) [y, node a (.binary .add) [node b (.string tail) [], x]])
      ⟨node m (.binary .add) [node y.mark (.string (head ++ tail)) [], x],
        node a (.binary .add) [node b (.string tail) []] :: y.children⟩
  | moveEmptyTail {m a x text} {y z : Tree (Option α)} (hz : z.kind = .string "")
      (hy : y.kind.text? = some text) :
    Rewrites known (node m (.binary .add) [y, node a (.binary .add) [x, z]])
      ⟨node m (.binary .add) [node y.mark (.string text) [], x],
        node a (.binary .add) [z] :: y.children⟩
  -- Conditionals
  | swapConditional {m a t x y} :
    Rewrites known (node m .conditional [node a (.unary .not) [t], x, y])
      ⟨node m .conditional [t, y, x], [node a (.unary .not) []]⟩
  | choose {m b t x y s} (ht : t.kind.truth? = some b)
      (h : chosenBranch m b t [x, y] = .ok s) :
    Rewrites known (node m .conditional [t, x, y]) s
  | sameBranches {m t} {x y : Tree (Option α)} (h : x.sameAs y) :
    Rewrites known (node m .conditional [t, x, y])
      (become m (comma t x).tree (y :: (comma t x).detached))
  | sameBranchesPure {m} {t x y : Tree (Option α)} (ht : t.hasEffects = .ok false)
      (h : x.sameAs y) :
    Rewrites known (node m .conditional [t, x, y]) (become m x [t, y])
  | toOr {m} {t x y : Tree (Option α)} (ht : t.hasEffects = .ok false) (h : t.sameAs x) :
    Rewrites known (node m .conditional [t, x, y])
      (fresh m (.binary .logicalOr) [t, y] [x])
  | toAnd {m} {t x y : Tree (Option α)} (ht : t.hasEffects = .ok false) (h : t.sameAs y) :
    Rewrites known (node m .conditional [t, x, y])
      (fresh m (.binary .logicalAnd) [t, x] [y])
  -- Loops and bodies
  | unbrace {m k l r b s} (hk : k.hasBody) (hs : b.unbrace? = some s) :
    Rewrites known (node m k (l ++ b :: r)) ⟨node m k (l ++ s.tree :: r), s.detached⟩
  | dropTest {m a t u b} (ht : t.kind.isTruthy) :
    Rewrites known (node m .forLoop [a, t, u, b])
      ⟨node m .forLoop [a, node t.mark .empty [], u, b], t.children⟩
  | whileToFor {m t b} : Rewrites known (node m .whileLoop [t, b])
      (fresh m .forLoop [new .empty [], t, new .empty [], b] [])
  -- Exception handlers
  | dropRethrow {m b h f} (hh : h.rethrows = .ok true) : Rewrites known (node m .try [b, h, f])
      ⟨node m .try [b, node h.mark .empty [], f], h.children⟩
  | dropFinalizer {m a b h} : Rewrites known (node m .try [b, h, node a .block []])
      ⟨node m .try [b, h, node a .empty []], []⟩
  | tryBlock {m b h f s} (hs : tryStatement m b h f [] = some s) :
    Rewrites known (node m .try [b, h, f]) s
  -- Branches
  | take {m truth t x y} (ht : t.kind.truth? = some truth)
      (hd : (if truth then y else x).bindsNames = false) : Rewrites known (node m .ifElse [t, x, y])
      (become m (if truth then x else y) [t, if truth then y else x])
  | testOnly {m t} {x y : Tree (Option α)} (hx : x.isEmpty) (hy : y.isEmpty) :
    Rewrites known (node m .ifElse [t, x, y]) (fresh m .expression [t] [x, y])
  | invert {m x y s} {t : Tree (Option α)} (h : negation t = .ok s) :
    Rewrites known (node m .ifElse [t, x, y]) ⟨node m .ifElse [s.tree, y, x], s.detached⟩
  | join {m a b k t x y} (hk : k.handsOver) :
    Rewrites known (node m .ifElse [t, node a k [x], node b k [y]])
      ⟨node m k [new .conditional [t, x, y]], [new .empty [], node a k [], node b k []]⟩
  | toLogical {m a t x} {y : Tree (Option α)} (hy : y.isEmpty) :
    Rewrites known (node m .ifElse [t, node a .expression [x], y])
      (fresh m .expression [new (.binary .logicalAnd) [t, x]] [node a .expression [], y])
  | toLogicalNot {m a b t x} {y : Tree (Option α)} (hy : y.isEmpty) :
    Rewrites known (node m .ifElse [node b (.unary .not) [t], node a .expression [x], y])
      (fresh m .expression [new (.binary .logicalOr) [t, x]]
        [node b (.unary .not) [], node a .expression [], y])

inductive Reduces (known : WellKnown) :
    Tree (Option α) → Tree (Option α) → List (Tree (Option α)) → Prop
  | refl (t : Tree (Option α)) : Reduces known t t []
  | rule {t : Tree (Option α)} {s : Step α} (h : Rewrites known t s) :
    Reduces known t s.tree s.detached
  | trans {t u v d e} (h : Reduces known t u d) (h' : Reduces known u v e) :
    Reduces known t v (e ++ d)
  | child {m k l r c c' d} (h : Reduces known c c' d) :
    Reduces known (node m k (l ++ c :: r)) (node m k (l ++ c' :: r)) d

end Tree

end ScriptPress
