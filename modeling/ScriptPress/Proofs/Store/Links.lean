import Mathlib.Data.List.Basic
import Mathlib.Logic.Relation
import ScriptPress.Store.Edit

/-! # Links between nodes -/

namespace ScriptPress

open List

def Adjacent {α : Type} : List α → α → α → Prop
  | [], _, _ => False
  | x :: l, a, b => (x = a ∧ l.head? = some b) ∨ Adjacent l a b

section Adjacent

variable {α : Type} {l r : List α} {a b c : α}

theorem adjacent_append : Adjacent (l ++ r) a b ↔
    Adjacent l a b ∨ Adjacent r a b ∨ (l.getLast? = some a ∧ r.head? = some b) := by
  induction l with
  | nil => simp [Adjacent]
  | cons x l ih =>
    rw [cons_append, Adjacent, Adjacent, ih]
    cases l with
    | nil => simp [Adjacent, or_comm]
    | cons y l => simp [or_assoc]

theorem Adjacent.left_mem (h : Adjacent l a b) : a ∈ l := by
  induction l with
  | nil => cases h
  | cons x l ih =>
    rcases h with ⟨rfl, -⟩ | h
    · exact (.head _)
    · exact mem_cons_of_mem _ (ih h)

theorem Adjacent.right_mem (h : Adjacent l a b) : b ∈ l := by
  induction l with
  | nil => cases h
  | cons x l ih =>
    rcases h with ⟨-, h⟩ | h
    · exact mem_cons_of_mem _ (mem_of_mem_head? h)
    · exact mem_cons_of_mem _ (ih h)

theorem not_adjacent_head (hl : l.Nodup) (h : l.head? = some b) : ¬Adjacent l a b := by
  cases l with
  | nil => cases h
  | cons x l =>
    cases h
    have hbl : b ∉ l := (nodup_cons.mp hl).1
    rintro (⟨-, h⟩ | h)
    · exact hbl (mem_of_mem_head? h)
    · exact hbl h.right_mem

theorem adjacent_left_iff (h : (l ++ a :: r).Nodup) :
    Adjacent (l ++ a :: r) a b ↔ r.head? = some b := by
  obtain ⟨-, har, hdisjoint⟩ := nodup_append.mp h
  have hal : a ∉ l := fun ha => hdisjoint a ha a (.head _) rfl
  rw [adjacent_append, Adjacent]
  constructor
  · rintro (h | (⟨-, h⟩ | h) | ⟨h, -⟩)
    · exact absurd h.left_mem hal
    · exact h
    · exact absurd h.left_mem (nodup_cons.mp har).1
    · exact absurd (mem_of_getLast? h) hal
  · intro h
    exact .inr (.inl (.inl ⟨rfl, h⟩))

theorem adjacent_right_iff (h : (l ++ b :: r).Nodup) :
    Adjacent (l ++ b :: r) a b ↔ l.getLast? = some a := by
  obtain ⟨-, hbr, hdisjoint⟩ := nodup_append.mp h
  rw [adjacent_append]
  constructor
  · rintro (h | h | ⟨h, -⟩)
    · exact absurd rfl (hdisjoint b h.right_mem b (.head _))
    · exact absurd h (not_adjacent_head hbr rfl)
    · exact h
  · intro h
    exact .inr (.inr ⟨h, rfl⟩)

theorem adjacent_insert : Adjacent (l ++ c :: r) a b ↔
    Adjacent l a b ∨ Adjacent r a b ∨ (l.getLast? = some a ∧ b = c) ∨
      (a = c ∧ r.head? = some b) := by
  rw [adjacent_append, Adjacent, List.head?_cons, Option.some.injEq]
  constructor
  · rintro (h | (⟨rfl, h⟩ | h) | ⟨h, rfl⟩)
    · exact .inl h
    · exact .inr (.inr (.inr ⟨rfl, h⟩))
    · exact .inr (.inl h)
    · exact .inr (.inr (.inl ⟨h, rfl⟩))
  · rintro (h | h | ⟨h, rfl⟩ | ⟨rfl, h⟩)
    · exact .inl h
    · exact .inr (.inl (.inr h))
    · exact .inr (.inr ⟨h, rfl⟩)
    · exact .inr (.inl (.inl ⟨rfl, h⟩))

end Adjacent

namespace Store

def Has (s : Store) (n : NodeId) : Prop := n.index < s.size

instance (s : Store) (n : NodeId) : Decidable (s.Has n) :=
  inferInstanceAs (Decidable (n.index < s.size))

variable {s : Store} {n m : NodeId} {link : Slot → Option NodeId} {k : Kind}

theorem slot?_modify (s : Store) (n m : NodeId) (f : Slot → Slot) :
    (s.modify n f).slot? m = (s.slot? m).map fun slot => if m = n then f slot else slot := by
  obtain ⟨i⟩ := n
  obtain ⟨j⟩ := m
  simp only [slot?, modify, Array.getElem?_modify, NodeId.mk.injEq, eq_comm (a := i)]
  split
  · rfl
  · simp

theorem slot?_create (s : Store) (k : Kind) (m : NodeId) :
    (s.create k).2.slot? m = if m.index = s.size then some { kind := k } else s.slot? m := by
  simp only [slot?, create, Array.getElem?_push]
  rfl

theorem size_modify (s : Store) (n : NodeId) (f : Slot → Slot) : (s.modify n f).size = s.size := by
  simp [size, modify]

theorem symbols_modify (s : Store) (n : NodeId) (f : Slot → Slot) :
    (s.modify n f).symbols = s.symbols :=
  rfl

theorem exists_slot (h : s.Has n) : ∃ slot, s.slot? n = some slot :=
  ⟨s.slots[n.index], Array.getElem?_eq_getElem h⟩

theorem slot?_of_not_has (h : ¬s.Has n) : s.slot? n = none :=
  Array.getElem?_eq_none (Nat.le_of_not_lt h)

theorem link_create (hlink : link { kind := k } = none) (m : NodeId) :
    ((s.create k).2.slot? m).bind link = (s.slot? m).bind link := by
  rw [slot?_create]
  split
  · rename_i hm
    rw [slot?_of_not_has (by rw [Has, hm]; exact Nat.lt_irrefl _)]
    simpa using hlink
  · rfl

theorem size_create (s : Store) (k : Kind) : (s.create k).2.size = s.size + 1 := by
  simp [size, create]

theorem kind_create (s : Store) (k : Kind) : (s.create k).2.kind (s.create k).1 = k := by
  rw [kind, slot?_create]
  simp [create]

theorem link_setKind (hlink : ∀ slot, link { slot with kind := k } = link slot) (n m : NodeId) :
    ((s.setKind n k).slot? m).bind link = (s.slot? m).bind link := by
  rw [setKind, slot?_modify, Option.bind_map]
  congr 1
  funext slot
  show link (if m = n then _ else slot) = link slot
  split
  · exact hlink slot
  · rfl

theorem kind_setKind (h : s.Has n) (k : Kind) : (s.setKind n k).kind n = k := by
  obtain ⟨slot, hslot⟩ := exists_slot h
  rw [kind, setKind, slot?_modify, hslot]
  simp

theorem slot?_setKind (h : m ≠ n) : (s.setKind n k).slot? m = s.slot? m := by
  simp only [setKind, slot?_modify, h, if_false, Option.map_id']

section

variable (s n m) (v : Option NodeId)

theorem slot?_setParent : (s.setParent n v).slot? m =
    (s.slot? m).map fun slot => { slot with parent := if m = n then v else slot.parent } := by
  rw [setParent, slot?_modify]
  congr
  funext slot
  split <;> rfl

theorem slot?_setFirstChild : (s.setFirstChild n v).slot? m = (s.slot? m).map fun slot =>
      { slot with firstChild := if m = n then v else slot.firstChild } := by
  rw [setFirstChild, slot?_modify]
  congr
  funext slot
  split <;> rfl

theorem slot?_setLastChild : (s.setLastChild n v).slot? m = (s.slot? m).map fun slot =>
      { slot with lastChild := if m = n then v else slot.lastChild } := by
  rw [setLastChild, slot?_modify]
  congr
  funext slot
  split <;> rfl

theorem slot?_setPrevious : (s.setPrevious n v).slot? m =
    (s.slot? m).map fun slot => { slot with previous := if m = n then v else slot.previous } := by
  rw [setPrevious, slot?_modify]
  congr
  funext slot
  split <;> rfl

theorem slot?_setNext : (s.setNext n v).slot? m =
    (s.slot? m).map fun slot => { slot with next := if m = n then v else slot.next } := by
  rw [setNext, slot?_modify]
  congr
  funext slot
  split <;> rfl

end

theorem slot?_attach (s : Store) (p c : NodeId) (position : Option NodeId) (m : NodeId) :
    (s.attach p c position).slot? m = (s.slot? m).map fun slot =>
      { slot with
        parent := if m = c then some p else slot.parent
        firstChild := if m = p ∧ s.before? p position = none then some c else slot.firstChild
        lastChild := if m = p ∧ position = none then some c else slot.lastChild
        previous := if some m = position then some c else
          if m = c then s.before? p position else slot.previous
        next := if some m = s.before? p position then some c else
          if m = c then position else slot.next } := by
  unfold attach
  generalize s.before? p position = previous
  cases previous <;> cases position <;>
    simp only [linkNext, linkPrevious, slot?_setPrevious, slot?_setNext, slot?_setFirstChild,
      slot?_setLastChild, slot?_setParent, Option.map_map, Function.comp_def] <;>
    congr 1 <;> funext slot <;> simp

theorem slot?_detach (s : Store) (n m : NodeId) : (s.detach n).slot? m = (s.slot? m).map fun slot =>
      { slot with
        parent := if m = n then none else slot.parent
        firstChild := if some m = s.parent? n ∧ s.previous? n = none then s.next? n
          else slot.firstChild
        lastChild := if some m = s.parent? n ∧ s.next? n = none then s.previous? n
          else slot.lastChild
        previous := if m = n then none else
          if (s.parent? n).isSome ∧ some m = s.next? n then s.previous? n else slot.previous
        next := if m = n then none else
          if (s.parent? n).isSome ∧ some m = s.previous? n then s.next? n else slot.next } := by
  unfold detach
  generalize s.parent? n = parent, s.previous? n = previous, s.next? n = next
  cases parent <;> cases previous <;> cases next <;>
    simp only [linkNext, linkPrevious, slot?_setPrevious, slot?_setNext, slot?_setFirstChild,
      slot?_setLastChild, slot?_modify, Option.map_map, Function.comp_def] <;>
    congr 1 <;> funext slot <;> split <;> simp [*]

section

variable {p c : NodeId} {position : Option NodeId}

theorem has_cases (s : Store) (m : NodeId) :
    (∃ slot, s.slot? m = some slot) ∨ (s.slot? m = none ∧ ∀ n, s.Has n → m ≠ n) := by
  by_cases h : s.Has m
  · exact .inl (exists_slot h)
  · refine .inr ⟨slot?_of_not_has h, fun n hn heq => ?_⟩
    rw [heq] at h
    exact h hn

theorem parent?_attach (hc : s.Has c) (m : NodeId) :
    (s.attach p c position).parent? m = if m = c then some p else s.parent? m := by
  rw [parent?, slot?_attach, parent?]
  rcases s.has_cases m with ⟨slot, hm⟩ | ⟨hm, hne⟩
  · simp [hm]
  · simp [hm, hne c hc]

theorem firstChild?_attach (hp : s.Has p) (m : NodeId) : (s.attach p c position).firstChild? m =
      if m = p ∧ s.before? p position = none then some c else s.firstChild? m := by
  rw [firstChild?, slot?_attach, firstChild?]
  rcases s.has_cases m with ⟨slot, hm⟩ | ⟨hm, hne⟩
  · simp [hm]
  · simp [hm, hne p hp]

theorem lastChild?_attach (hp : s.Has p) (m : NodeId) : (s.attach p c position).lastChild? m =
      if m = p ∧ position = none then some c else s.lastChild? m := by
  rw [lastChild?, slot?_attach, lastChild?]
  rcases s.has_cases m with ⟨slot, hm⟩ | ⟨hm, hne⟩
  · simp [hm]
  · simp [hm, hne p hp]

theorem previous?_attach (hc : s.Has c) (hposition : ∀ b, position = some b → s.Has b)
    (m : NodeId) : (s.attach p c position).previous? m = if some m = position then some c else
        if m = c then s.before? p position else s.previous? m := by
  rw [previous?, slot?_attach, previous?]
  rcases s.has_cases m with ⟨slot, hm⟩ | ⟨hm, hne⟩
  · simp [hm]
  · have hm' : some m ≠ position := fun h => hne m (hposition m h.symm) rfl
    simp [hm, hne c hc, hm']

theorem next?_attach (hc : s.Has c) (hbefore : ∀ b, s.before? p position = some b → s.Has b)
    (m : NodeId) : (s.attach p c position).next? m =
      if some m = s.before? p position then some c else
        if m = c then position else s.next? m := by
  rw [next?, slot?_attach, next?]
  rcases s.has_cases m with ⟨slot, hm⟩ | ⟨hm, hne⟩
  · simp [hm]
  · have hm' : some m ≠ s.before? p position := fun h => hne m (hbefore m h.symm) rfl
    simp [hm, hne c hc, hm']

theorem size_attach : (s.attach p c position).size = s.size := by
  unfold attach
  generalize s.before? p position = previous
  cases previous <;> cases position <;>
    simp only [linkNext, linkPrevious, setPrevious, setNext, setFirstChild, setLastChild,
      setParent, size_modify]

theorem symbols_attach : (s.attach p c position).symbols = s.symbols := by
  unfold attach
  generalize s.before? p position = previous
  cases previous <;> cases position <;>
    simp only [linkNext, linkPrevious, setPrevious, setNext, setFirstChild, setLastChild,
      setParent, symbols_modify]

theorem kind_attach (m : NodeId) : (s.attach p c position).kind m = s.kind m := by
  rw [kind, slot?_attach, kind, Option.map_map]
  rfl

end

theorem parent?_detach (n m : NodeId) :
    (s.detach n).parent? m = if m = n then none else s.parent? m := by
  rw [parent?, slot?_detach, show s.parent? m = (s.slot? m).bind Slot.parent from rfl]
  cases s.slot? m <;> simp

theorem firstChild?_detach (hparent : ∀ p, s.parent? n = some p → s.Has p) (m : NodeId) :
    (s.detach n).firstChild? m =
      if some m = s.parent? n ∧ s.previous? n = none then s.next? n else s.firstChild? m := by
  rw [firstChild?, slot?_detach, firstChild?]
  rcases s.has_cases m with ⟨slot, hm⟩ | ⟨hm, hne⟩
  · simp [hm]
  · have hm' : some m ≠ s.parent? n := fun h => hne m (hparent m h.symm) rfl
    simp [hm, hm']

theorem lastChild?_detach (hparent : ∀ p, s.parent? n = some p → s.Has p) (m : NodeId) :
    (s.detach n).lastChild? m =
      if some m = s.parent? n ∧ s.next? n = none then s.previous? n else s.lastChild? m := by
  rw [lastChild?, slot?_detach, lastChild?]
  rcases s.has_cases m with ⟨slot, hm⟩ | ⟨hm, hne⟩
  · simp [hm]
  · have hm' : some m ≠ s.parent? n := fun h => hne m (hparent m h.symm) rfl
    simp [hm, hm']

theorem previous?_detach (hnext : ∀ b, s.next? n = some b → s.Has b) (m : NodeId) :
    (s.detach n).previous? m = if m = n then none else
      if (s.parent? n).isSome ∧ some m = s.next? n then s.previous? n else s.previous? m := by
  rw [previous?, slot?_detach, show s.previous? m = (s.slot? m).bind Slot.previous from rfl]
  rcases s.has_cases m with ⟨slot, hm⟩ | ⟨hm, hne⟩
  · simp [hm]
  · have hm' : some m ≠ s.next? n := fun h => hne m (hnext m h.symm) rfl
    simp [hm, hm']

theorem next?_detach (hprevious : ∀ b, s.previous? n = some b → s.Has b) (m : NodeId) :
    (s.detach n).next? m = if m = n then none else
      if (s.parent? n).isSome ∧ some m = s.previous? n then s.next? n else s.next? m := by
  rw [next?, slot?_detach, show s.next? m = (s.slot? m).bind Slot.next from rfl]
  rcases s.has_cases m with ⟨slot, hm⟩ | ⟨hm, hne⟩
  · simp [hm]
  · have hm' : some m ≠ s.previous? n := fun h => hne m (hprevious m h.symm) rfl
    simp [hm, hm']

theorem size_detach (n : NodeId) : (s.detach n).size = s.size := by
  unfold detach
  generalize s.parent? n = parent, s.previous? n = previous, s.next? n = next
  cases parent <;> cases previous <;> cases next <;>
    simp only [linkNext, linkPrevious, setPrevious, setNext, setFirstChild, setLastChild,
      size_modify]

theorem symbols_detach (n : NodeId) : (s.detach n).symbols = s.symbols := by
  unfold detach
  generalize s.parent? n = parent, s.previous? n = previous, s.next? n = next
  cases parent <;> cases previous <;> cases next <;>
    simp only [linkNext, linkPrevious, setPrevious, setNext, setFirstChild, setLastChild,
      symbols_modify]

theorem kind_detach (n m : NodeId) : (s.detach n).kind m = s.kind m := by
  rw [kind, slot?_detach, kind, Option.map_map]
  rfl

end Store

end ScriptPress
