import Mathlib.Data.List.Basic
import ScriptPress.Store.Basic

/-! # Edits of ordered forests -/

namespace ScriptPress

open List

/-- The kind of each node, its parent, and its children in order. -/
@[ext] structure Forest where
  kind : NodeId → Kind
  parent : NodeId → Option NodeId
  children : NodeId → List NodeId

namespace Forest

variable {n p c : NodeId} {new l r cs : List NodeId} {position : Option NodeId} {F : Forest}
  {target source : NodeId}

def splice (n : NodeId) (new l : List NodeId) : List NodeId :=
  l.flatMap fun c => if c = n then new else [c]

def remove (F : Forest) (n : NodeId) : Forest where
  kind := F.kind
  parent c := if c = n then none else F.parent c
  children p := splice n [] (F.children p)

def release (F : Forest) (n : NodeId) : Forest where
  kind := F.kind
  parent c := if c ∈ F.children n then none else F.parent c
  children p := if p = n then [] else F.children p

/-- Puts nodes below `p`, directly before one of its children or behind them all. -/
def insert (F : Forest) (p : NodeId) (cs : List NodeId) (position : Option NodeId) : Forest where
  kind := F.kind
  parent c := if c ∈ cs then some p else F.parent c
  children q :=
    if q = p then
      match position with
      | some b => splice b (cs ++ [b]) (F.children p)
      | none => F.children p ++ cs
    else F.children q

def replace (F : Forest) (old new : NodeId) : Forest where
  kind := F.kind
  parent c := if c = old then none else if c = new then F.parent old else F.parent c
  children p := splice old [new] (F.children p)

def dissolve (F : Forest) (n : NodeId) : Forest where
  kind := F.kind
  parent c := if c = n then none else if c ∈ F.children n then F.parent n else F.parent c
  children p := if p = n then [] else splice n (F.children n) (F.children p)

def moveChildren (F : Forest) (target source : NodeId) : Forest where
  kind := F.kind
  parent c := if c ∈ F.children source then some target else F.parent c
  children p := (if p = source then [] else F.children p) ++
    if p = target then F.children source else []

/-- Makes `target` what `source` was. It loses its own children and stays where it is, and nothing
is left of `source`. -/
def transplant (F : Forest) (target source : NodeId) : Forest where
  kind c := if c = target then F.kind source else if c = source then .empty else F.kind c
  parent c :=
    if c ∈ F.children source then some target
    else if c ∈ F.children target then none
    else F.parent c
  children p :=
    if p = target then F.children source else if p = source then [] else F.children p

def setKind (F : Forest) (n : NodeId) (k : Kind) : Forest :=
  { F with kind := fun c => if c = n then k else F.kind c }

theorem splice_of_not_mem (h : n ∉ l) : splice n new l = l := by
  induction l with
  | nil => rfl
  | cons c l ih =>
    rw [mem_cons, not_or] at h
    rw [splice, flatMap_cons, if_neg (Ne.symm h.1)]
    exact congrArg (c :: ·) (ih h.2)

theorem splice_append : splice n new (l ++ r) = splice n new l ++ splice n new r :=
  flatMap_append

theorem splice_self : splice n new [n] = new := by
  simp [splice]

theorem splice_singleton : splice n [n] l = l := by
  have h : (fun c => if c = n then [n] else [c]) = fun c => [c] := by
    funext c
    split
    · rename_i hc
      rw [hc]
    · rfl
  rw [splice, h, flatMap_singleton']

theorem splice_middle (hl : n ∉ l) (hr : n ∉ r) : splice n new (l ++ n :: r) = l ++ new ++ r := by
  rw [← singleton_append, splice_append, splice_append, splice_of_not_mem hl, splice_self,
    splice_of_not_mem hr, append_assoc]

theorem splice_splice {inner : List NodeId} :
    splice n new (splice n inner l) = splice n (splice n new inner) l := by
  rw [splice, splice, flatMap_assoc]
  refine congrArg (l.flatMap ·) (funext fun c => ?_)
  by_cases hc : c = n
  · rw [if_pos hc, if_pos hc, splice]
  · rw [if_neg hc, if_neg hc, flatMap_singleton, if_neg hc]

theorem insert_nil : F.insert p [] position = F := by
  refine Forest.ext rfl (funext fun c => by simp [insert]) (funext fun q => ?_)
  by_cases hq : q = p
  · subst hq
    cases position with
    | none => simp [insert]
    | some b => simp [insert, splice_singleton]
  · simp [insert, hq]

theorem insert_cons (hc : position ≠ some c) :
    (F.insert p [c] position).insert p cs position = F.insert p (c :: cs) position := by
  refine Forest.ext rfl (funext fun m => ?_) (funext fun q => ?_)
  · by_cases hm : m ∈ cs <;> by_cases hmc : m = c <;> simp [insert, hm, hmc]
  · by_cases hq : q = p
    · subst hq
      cases position with
      | none => simp [insert]
      | some b =>
        have hb : b ∉ [c] := by
          rw [mem_singleton]
          exact fun heq => hc (congrArg some heq)
        simp only [insert, if_true, splice_splice]
        rw [splice_append, splice_of_not_mem hb, splice_self]
        rfl
    · simp [insert, hq]

theorem remove_insert {old : NodeId} (hp : F.parent old = some p) (hold : old ≠ n)
    (hlist : ∀ q, old ∈ F.children q → q = p) :
    (F.insert p [n] (some old)).remove old = F.replace old n := by
  refine Forest.ext rfl (funext fun c => ?_) (funext fun q => ?_)
  · by_cases hc : c = old
    · simp [remove, replace, hc]
    · simp [remove, replace, insert, hc, hp]
  · by_cases hq : q = p
    · subst hq
      have hn : old ∉ [n] := by simpa using hold
      simp only [remove, replace, insert, if_true, splice_splice]
      rw [splice_append, splice_of_not_mem hn, splice_self, append_nil]
    · have hnot : old ∉ F.children q := fun hmem => hq (hlist q hmem)
      simp only [remove, replace, insert, if_neg hq]
      rw [splice_of_not_mem hnot, splice_of_not_mem hnot]

theorem remove_insert_release (hp : F.parent n = some p) (hne : n ≠ p) (hself : n ∉ F.children n)
    (hlist : ∀ q, n ∈ F.children q → q = p) :
    ((F.release n).insert p (F.children n) (some n)).remove n = F.dissolve n := by
  refine Forest.ext rfl (funext fun c => ?_) (funext fun q => ?_)
  · by_cases hc : c = n
    · simp [remove, dissolve, hc]
    · by_cases hcn : c ∈ F.children n
      · simp [remove, dissolve, insert, hc, hcn, hp]
      · simp [remove, dissolve, insert, release, hc, hcn]
  · by_cases hq : q = p
    · subst hq
      have hqn : q ≠ n := Ne.symm hne
      simp only [remove, dissolve, insert, release, if_true, if_neg hqn, splice_splice]
      rw [splice_append, splice_of_not_mem hself, splice_self, append_nil]
    · have hnot : n ∉ F.children q := fun hmem => hq (hlist q hmem)
      simp only [remove, dissolve, insert, release, if_neg hq]
      by_cases hqn : q = n
      · rw [if_pos hqn, if_pos hqn]
        rfl
      · rw [if_neg hqn, if_neg hqn, splice_of_not_mem hnot, splice_of_not_mem hnot]

theorem insert_release :
    (F.release source).insert target (F.children source) none = F.moveChildren target source := by
  refine Forest.ext rfl (funext fun c => ?_) (funext fun q => ?_)
  · by_cases hc : c ∈ F.children source <;> simp [insert, release, moveChildren, hc]
  · by_cases hq : q = target
    · subst hq
      simp [insert, release, moveChildren]
    · simp [insert, release, moveChildren, hq]

theorem moveChildren_setKind (hne : target ≠ source) :
    (((F.release target).setKind source .empty).setKind target (F.kind source)).moveChildren
      target source = F.transplant target source := by
  refine Forest.ext (funext fun c => ?_) (funext fun c => ?_) (funext fun q => ?_)
  · simp [moveChildren, setKind, release, transplant]
  · simp [moveChildren, setKind, release, transplant, Ne.symm hne]
  · by_cases hq : q = target
    · subst hq
      simp [moveChildren, setKind, release, transplant, Ne.symm hne]
    · simp [moveChildren, setKind, release, transplant, hq]

end Forest

end ScriptPress
