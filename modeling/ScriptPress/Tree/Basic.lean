import ScriptPress.Tree.Fault

/-! # Marked trees -/

namespace ScriptPress

inductive Tree (α : Type) where
  | node (mark : α) (kind : Kind) (children : List (Tree α))

namespace Tree

variable {α β : Type}

def mark : Tree α → α
  | node m _ _ => m

def kind : Tree α → Kind
  | node _ k _ => k

def children : Tree α → List (Tree α)
  | node _ _ cs => cs

abbrev plain (k : Kind) (cs : List (Tree Unit)) : Tree Unit := node () k cs

@[simp] theorem mark_node (m : α) (k : Kind) (cs : List (Tree α)) : (node m k cs).mark = m := rfl

@[simp] theorem kind_node (m : α) (k : Kind) (cs : List (Tree α)) : (node m k cs).kind = k := rfl

@[simp] theorem children_node (m : α) (k : Kind) (cs : List (Tree α)) :
    (node m k cs).children = cs := rfl

mutual

def size : Tree α → Nat
  | node _ _ cs => 1 + sizes cs

def sizes : List (Tree α) → Nat
  | [] => 0
  | c :: cs => c.size + sizes cs

end

@[simp] theorem size_node (m : α) (k : Kind) (cs : List (Tree α)) :
    (node m k cs).size = 1 + sizes cs := by rw [size]

@[simp] theorem sizes_nil : sizes ([] : List (Tree α)) = 0 := by rw [sizes]

@[simp] theorem sizes_cons (c : Tree α) (cs : List (Tree α)) :
    sizes (c :: cs) = c.size + sizes cs := by rw [sizes]

theorem size_pos (t : Tree α) : 0 < t.size := by
  cases t
  rw [size_node]
  omega

theorem size_eq (t : Tree α) : t.size = 1 + sizes t.children := by
  cases t
  simp

mutual

def map (f : α → β) : Tree α → Tree β
  | node m k cs => node (f m) k (mapAll f cs)

def mapAll (f : α → β) : List (Tree α) → List (Tree β)
  | [] => []
  | c :: cs => c.map f :: mapAll f cs

end

mutual

def preorder : Tree α → List α
  | node m _ cs => m :: preorderAll cs

def preorderAll : List (Tree α) → List α
  | [] => []
  | c :: cs => c.preorder ++ preorderAll cs

end

def bare (t : Tree α) : Tree Unit := t.map fun _ => ()

mutual

/-- Same kinds in the same places. Numbers are compared by their bits. -/
def sameAs : Tree α → Tree β → Bool
  | node _ k cs, node _ k' cs' => k == k' && sameAll cs cs'

def sameAll : List (Tree α) → List (Tree β) → Bool
  | [], [] => true
  | c :: cs, c' :: cs' => sameAs c c' && sameAll cs cs'
  | _, _ => false

end

def isEmpty (t : Tree α) : Bool := t.kind == .empty

def isUndefined (t : Tree α) : Bool := t.kind == .undefined

def isNot (t : Tree α) : Bool := t.kind == .unary .not

end Tree

end ScriptPress
