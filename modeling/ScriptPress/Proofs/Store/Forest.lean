import Mathlib.Logic.Function.Basic
import ScriptPress.Proofs.Store.Links

/-! # Stores as forests -/

namespace ScriptPress.Store

open List Option Function

/-- The links of the store are those of the lists `kids`. -/
structure Links (s : Store) (kids : NodeId → List NodeId) : Prop where
  nodup : ∀ p, (kids p).Nodup
  parent : ∀ c p, s.parent? c = some p ↔ c ∈ kids p
  first : ∀ p, s.firstChild? p = (kids p).head?
  last : ∀ p, s.lastChild? p = (kids p).getLast?
  next : ∀ a b, s.next? a = some b ↔ ∃ p, Adjacent (kids p) a b
  previous : ∀ a b, s.previous? b = some a ↔ ∃ p, Adjacent (kids p) a b
  owner : ∀ p c, c ∈ kids p → s.Has p
  ranked : ∃ rank : NodeId → Nat, ∀ p c, c ∈ kids p → rank c < rank p

def Consistent (s : Store) : Prop := ∃ kids, s.Links kids

def Above (s : Store) (a n : NodeId) : Prop :=
  Relation.TransGen (fun c p => s.parent? c = some p) n a

variable {s : Store} {kids : NodeId → List NodeId} {p c n : NodeId} {l r : List NodeId}

namespace Links

section

variable (h : s.Links kids)
include h

theorem has (hc : c ∈ kids p) : s.Has c := by
  by_contra hn
  have hparent := (h.parent c p).mpr hc
  rw [parent?, slot?_of_not_has hn] at hparent
  cases hparent

theorem unique {q : NodeId} (hp : c ∈ kids p) (hq : c ∈ kids q) : q = p := by
  rw [← h.parent] at hp hq
  rw [hp, some.injEq] at hq
  exact hq.symm

theorem not_mem (hc : s.parent? c = none) : c ∉ kids p := by
  rw [← h.parent, hc]
  simp

theorem not_mem_self (p : NodeId) : p ∉ kids p := by
  obtain ⟨rank, hrank⟩ := h.ranked
  exact fun hp => Nat.lt_irrefl _ (hrank p p hp)

theorem induction {motive : NodeId → Prop} (step : ∀ n, (∀ c ∈ kids n, motive c) → motive n)
    (n : NodeId) : motive n := by
  obtain ⟨rank, hrank⟩ := h.ranked
  induction hk : rank n using Nat.strongRecOn generalizing n with
  | _ k ih =>
    subst hk
    exact step n fun c hc => ih _ (hrank n c hc) c rfl

theorem next_eq (hp : kids p = l ++ n :: r) : s.next? n = r.head? := by
  have hnodup := h.nodup p
  rw [hp] at hnodup
  ext b
  rw [h.next, ← adjacent_left_iff hnodup, ← hp]
  constructor
  · rintro ⟨q, hq⟩
    obtain rfl := h.unique (p := p) (by rw [hp]; simp) hq.left_mem
    exact hq
  · exact fun hadj => ⟨p, hadj⟩

theorem previous_eq (hp : kids p = l ++ n :: r) : s.previous? n = l.getLast? := by
  have hnodup := h.nodup p
  rw [hp] at hnodup
  ext b
  rw [h.previous, ← adjacent_right_iff hnodup, ← hp]
  constructor
  · rintro ⟨q, hq⟩
    obtain rfl := h.unique (p := p) (by rw [hp]; simp) hq.right_mem
    exact hq
  · exact fun hadj => ⟨p, hadj⟩

theorem before_eq (hp : kids p = l ++ r) : s.before? p r.head? = l.getLast? := by
  cases r with
  | nil =>
    rw [append_nil] at hp
    rw [head?_nil, before?, h.last, hp]
  | cons b r =>
    rw [head?_cons, before?]
    exact h.previous_eq hp

theorem siblings_none (hn : s.parent? n = none) : s.previous? n = none ∧ s.next? n = none := by
  constructor
  · rw [eq_none_iff_forall_ne_some]
    intro a ha
    obtain ⟨p, hp⟩ := (h.previous a n).mp ha
    exact h.not_mem hn hp.right_mem
  · rw [eq_none_iff_forall_ne_some]
    intro b hb
    obtain ⟨p, hp⟩ := (h.next n b).mp hb
    exact h.not_mem hn hp.left_mem

end

theorem empty : Store.empty.Links fun _ => [] where
  nodup _ := nodup_nil
  parent c p := by simp [parent?, slot?, Store.empty]
  first p := by simp [firstChild?, slot?, Store.empty]
  last p := by simp [lastChild?, slot?, Store.empty]
  next a b := by simp [next?, slot?, Store.empty, Adjacent]
  previous a b := by simp [previous?, slot?, Store.empty, Adjacent]
  owner p c h := by cases h
  ranked := ⟨fun _ => 0, fun p c h => by cases h⟩

theorem congr {s' : Store} (h : s.Links kids) (hparent : s'.parent? = s.parent?)
    (hfirst : s'.firstChild? = s.firstChild?) (hlast : s'.lastChild? = s.lastChild?)
    (hnext : s'.next? = s.next?) (hprevious : s'.previous? = s.previous?)
    (hsize : s.size ≤ s'.size) : s'.Links kids where
  nodup := h.nodup
  parent := by rw [hparent]; exact h.parent
  first := by rw [hfirst]; exact h.first
  last := by rw [hlast]; exact h.last
  next := by rw [hnext]; exact h.next
  previous := by rw [hprevious]; exact h.previous
  owner p c hc := Nat.lt_of_lt_of_le (h.owner p c hc) hsize
  ranked := h.ranked

theorem create (h : s.Links kids) (k : Kind) : (s.create k).2.Links kids := by
  refine h.congr ?_ ?_ ?_ ?_ ?_ (by rw [size_create]; exact Nat.le_succ _)
  · exact funext (link_create rfl)
  · exact funext (link_create rfl)
  · exact funext (link_create rfl)
  · exact funext (link_create rfl)
  · exact funext (link_create rfl)

theorem setKind (h : s.Links kids) (n : NodeId) (k : Kind) : (s.setKind n k).Links kids := by
  refine h.congr ?_ ?_ ?_ ?_ ?_ (Nat.le_of_eq (size_modify _ _ _).symm)
  · exact funext (link_setKind (fun _ => rfl) n)
  · exact funext (link_setKind (fun _ => rfl) n)
  · exact funext (link_setKind (fun _ => rfl) n)
  · exact funext (link_setKind (fun _ => rfl) n)
  · exact funext (link_setKind (fun _ => rfl) n)

theorem exists_adjacent_update {xs : List NodeId} {a b : NodeId}
    (h : ∀ q, Adjacent (kids q) a b → q = p) :
    (∃ q, Adjacent (update kids p xs q) a b) ↔ Adjacent xs a b := by
  constructor
  · rintro ⟨q, hq⟩
    by_cases hqp : q = p
    · rwa [hqp, update_self] at hq
    · rw [update_of_ne hqp] at hq
      exact absurd (h q hq) hqp
  · intro hadj
    exact ⟨p, by rwa [update_self]⟩

theorem exists_adjacent_congr {xs : List NodeId} {a b : NodeId}
    (h : Adjacent (kids p) a b ↔ Adjacent xs a b) :
    (∃ q, Adjacent (kids q) a b) ↔ ∃ q, Adjacent (update kids p xs q) a b := by
  refine exists_congr fun q => ?_
  by_cases hqp : q = p
  · rw [hqp, update_self, h]
  · rw [update_of_ne hqp]

section Attach

variable (h : s.Links kids) (hp : s.Has p) (hc : s.Has c) (hroot : s.parent? c = none)
  (hlist : kids p = l ++ r)

include h hroot hlist

theorem nodup_insert : (l ++ c :: r).Nodup := by
  have hnodup := h.nodup p
  have hmem := h.not_mem (p := p) hroot
  rw [hlist] at hnodup hmem
  rw [perm_middle.nodup_iff, nodup_cons]
  exact ⟨hmem, hnodup⟩

include hc

theorem next_attach (a b : NodeId) : (s.attach p c r.head?).next? a = some b ↔
    ∃ q, Adjacent (update kids p (l ++ c :: r) q) a b := by
  have hbefore := h.before_eq hlist
  have hnodup := h.nodup_insert hroot hlist
  have hlast : ∀ x, l.getLast? = some x → x ∈ kids p := fun x hx => by
    rw [hlist]
    exact mem_append_left _ (mem_of_getLast? hx)
  rw [next?_attach hc (by rw [hbefore]; exact fun x hx => h.has (hlast x hx)), hbefore]
  by_cases hal : l.getLast? = some a
  · have honly : ∀ q, Adjacent (kids q) a b → q = p := fun q hq =>
      h.unique (hlast a hal) hq.left_mem
    rw [if_pos hal.symm, exists_adjacent_update honly]
    obtain ⟨l', rfl⟩ := getLast?_eq_some_iff.mp hal
    rw [append_assoc, singleton_append] at hnodup ⊢
    exact (adjacent_left_iff hnodup).symm
  · rw [if_neg fun heq => hal heq.symm]
    by_cases hac : a = c
    · subst hac
      have honly : ∀ q, Adjacent (kids q) a b → q = p := fun q hq =>
        absurd hq.left_mem (h.not_mem hroot)
      rw [if_pos rfl, exists_adjacent_update honly, adjacent_left_iff hnodup]
    · rw [if_neg hac, h.next, exists_adjacent_congr]
      rw [hlist, adjacent_append, adjacent_insert]
      simp only [hal, hac, false_and, or_false]

theorem previous_attach (a b : NodeId) : (s.attach p c r.head?).previous? b = some a ↔
    ∃ q, Adjacent (update kids p (l ++ c :: r) q) a b := by
  have hbefore := h.before_eq hlist
  have hnodup := h.nodup_insert hroot hlist
  have hhead : ∀ x, r.head? = some x → x ∈ kids p := fun x hx => by
    rw [hlist]
    exact mem_append_right _ (mem_of_mem_head? hx)
  rw [previous?_attach hc fun x hx => h.has (hhead x hx), hbefore]
  by_cases hbr : r.head? = some b
  · have honly : ∀ q, Adjacent (kids q) a b → q = p := fun q hq =>
      h.unique (hhead b hbr) hq.right_mem
    rw [if_pos hbr.symm, exists_adjacent_update honly]
    obtain ⟨r', rfl⟩ := head?_eq_some_iff.mp hbr
    rw [append_cons] at hnodup ⊢
    rw [adjacent_right_iff hnodup, getLast?_concat]
  · rw [if_neg fun heq => hbr heq.symm]
    by_cases hbc : b = c
    · subst hbc
      have honly : ∀ q, Adjacent (kids q) a b → q = p := fun q hq =>
        absurd hq.right_mem (h.not_mem hroot)
      rw [if_pos rfl, exists_adjacent_update honly, adjacent_right_iff hnodup]
    · rw [if_neg hbc, h.previous, exists_adjacent_congr]
      rw [hlist, adjacent_append, adjacent_insert]
      simp only [hbr, hbc, and_false, or_false]

include hp

theorem attach (hne : c ≠ p) (habove : ¬s.Above c p) :
    (s.attach p c r.head?).Links (update kids p (l ++ c :: r)) := by
  have hbefore := h.before_eq hlist
  have hnodup := h.nodup_insert hroot hlist
  have hmem : ∀ x q, x ∈ update kids p (l ++ c :: r) q ↔ (x = c ∧ q = p) ∨ x ∈ kids q := by
    intro x q
    by_cases hq : q = p
    · subst hq
      rw [update_self, hlist]
      simp only [mem_append, mem_cons, and_true]
      exact or_left_comm
    · rw [update_of_ne hq]
      simp [hq]
  refine ⟨fun q => ?_, fun x q => ?_, fun q => ?_, fun q => ?_, h.next_attach hc hroot hlist,
    h.previous_attach hc hroot hlist, fun q x hx => ?_, ?_⟩
  · by_cases hq : q = p
    · rw [hq, update_self]
      exact hnodup
    · rw [update_of_ne hq]
      exact h.nodup q
  · rw [hmem, parent?_attach hc]
    by_cases hx : x = c
    · subst hx
      rw [if_pos rfl, some.injEq]
      simp [h.not_mem hroot, eq_comm]
    · rw [if_neg hx, h.parent]
      simp [hx]
  · rw [firstChild?_attach hp, hbefore, h.first]
    by_cases hq : q = p
    · subst hq
      rw [update_self, hlist]
      cases l <;> simp
    · rw [update_of_ne hq]
      simp [hq]
  · rw [lastChild?_attach hp, h.last]
    by_cases hq : q = p
    · subst hq
      rw [update_self, hlist]
      cases r <;> simp
    · rw [update_of_ne hq]
      simp [hq]
  · have hsize : (s.attach p c r.head?).size = s.size := size_attach
    rw [Has, hsize]
    rcases (hmem x q).mp hx with ⟨-, rfl⟩ | hx
    · exact hp
    · exact h.owner q x hx
  · -- The parent and all above it move up, so that the child comes to stand below them.
    obtain ⟨rank, hrank⟩ := h.ranked
    classical
    refine ⟨fun x => if x = p ∨ s.Above x p then rank x + rank c + 1 else rank x, fun q x hx => ?_⟩
    beta_reduce
    rcases (hmem x q).mp hx with ⟨rfl, rfl⟩ | hx
    · rw [if_neg (by simp [hne, habove]), if_pos (.inl rfl)]
      omega
    · have hlt := hrank q x hx
      have hup := (h.parent x q).mpr hx
      by_cases hxp : x = p ∨ s.Above x p
      · have hqp : s.Above q p := by
          rcases hxp with rfl | hxp
          · exact .single hup
          · exact hxp.tail hup
        rw [if_pos hxp, if_pos (.inr hqp)]
        omega
      · rw [if_neg hxp]
        split <;> omega

end Attach

theorem detach_root (h : s.Links kids) (hroot : s.parent? n = none) : (s.detach n).Links kids := by
  obtain ⟨hprevious, hnext⟩ := h.siblings_none hroot
  refine h.congr (funext fun m => ?_) (funext fun m => ?_) (funext fun m => ?_)
    (funext fun m => ?_) (funext fun m => ?_) (Nat.le_of_eq (size_detach n).symm)
  · rw [parent?_detach]
    split
    · rename_i hm
      rw [hm, hroot]
    · rfl
  · rw [firstChild?_detach (by simp [hroot])]
    simp [hroot]
  · rw [lastChild?_detach (by simp [hroot])]
    simp [hroot]
  · rw [next?_detach (by simp [hprevious])]
    simp only [hroot, isSome_none, Bool.false_eq_true, false_and, if_false]
    split
    · rename_i hm
      rw [hm, hnext]
    · rfl
  · rw [previous?_detach (by simp [hnext])]
    simp only [hroot, isSome_none, Bool.false_eq_true, false_and, if_false]
    split
    · rename_i hm
      rw [hm, hprevious]
    · rfl

section Detach

variable (h : s.Links kids) (hlist : kids p = l ++ n :: r)

include h hlist

theorem nodup_erase : n ∉ l ++ r ∧ (l ++ r).Nodup := by
  have hnodup := h.nodup p
  rw [hlist, perm_middle.nodup_iff, nodup_cons] at hnodup
  exact hnodup

theorem parent_of_mem : s.parent? n = some p :=
  (h.parent n p).mpr (by rw [hlist]; simp)

theorem mem_erase (x q : NodeId) : x ∈ update kids p (l ++ r) q ↔ x ≠ n ∧ x ∈ kids q := by
  obtain ⟨hn, -⟩ := h.nodup_erase hlist
  by_cases hq : q = p
  · subst hq
    rw [update_self, hlist]
    constructor
    · intro hx
      refine ⟨fun heq => hn (heq ▸ hx), ?_⟩
      rcases mem_append.mp hx with hx | hx
      · exact mem_append_left _ hx
      · exact mem_append_right _ (.tail _ hx)
    · rintro ⟨hne, hx⟩
      rcases mem_append.mp hx with hx | hx
      · exact mem_append_left _ hx
      · exact mem_append_right _ ((mem_cons.mp hx).resolve_left hne)
  · rw [update_of_ne hq]
    refine ⟨fun hx => ⟨?_, hx⟩, fun hx => hx.2⟩
    rintro rfl
    exact hq (h.unique (by rw [hlist]; simp) hx)

theorem next_detach (a b : NodeId) : (s.detach n).next? a = some b ↔
    ∃ q, Adjacent (update kids p (l ++ r) q) a b := by
  have hprevious := h.previous_eq hlist
  have hnodup := (h.nodup_erase hlist).2
  have hlast : ∀ x, l.getLast? = some x → x ∈ kids p := fun x hx => by
    rw [hlist]
    exact mem_append_left _ (mem_of_getLast? hx)
  rw [next?_detach (by rw [hprevious]; exact fun x hx => h.has (hlast x hx)), hprevious,
    h.next_eq hlist, h.parent_of_mem hlist]
  simp only [isSome_some, true_and]
  by_cases han : a = n
  · rw [if_pos han]
    refine ⟨nofun, ?_⟩
    rintro ⟨q, hq⟩
    exact absurd han ((h.mem_erase hlist a q).mp hq.left_mem).1
  · rw [if_neg han]
    by_cases hal : l.getLast? = some a
    · have honly : ∀ q, Adjacent (kids q) a b → q = p := fun q hq =>
        h.unique (hlast a hal) hq.left_mem
      rw [if_pos hal.symm, exists_adjacent_update honly]
      obtain ⟨l', rfl⟩ := getLast?_eq_some_iff.mp hal
      rw [append_assoc, singleton_append] at hnodup ⊢
      exact (adjacent_left_iff hnodup).symm
    · rw [if_neg fun heq => hal heq.symm, h.next, exists_adjacent_congr]
      rw [hlist, adjacent_insert, adjacent_append]
      simp only [hal, han, false_and, or_false]

theorem previous_detach (a b : NodeId) : (s.detach n).previous? b = some a ↔
    ∃ q, Adjacent (update kids p (l ++ r) q) a b := by
  have hnext := h.next_eq hlist
  have hnodup := (h.nodup_erase hlist).2
  have hhead : ∀ x, r.head? = some x → x ∈ kids p := fun x hx => by
    rw [hlist]
    exact mem_append_right _ (mem_cons_of_mem _ (mem_of_mem_head? hx))
  rw [previous?_detach (by rw [hnext]; exact fun x hx => h.has (hhead x hx)), hnext,
    h.previous_eq hlist, h.parent_of_mem hlist]
  simp only [isSome_some, true_and]
  by_cases hbn : b = n
  · rw [if_pos hbn]
    refine ⟨nofun, ?_⟩
    rintro ⟨q, hq⟩
    exact absurd hbn ((h.mem_erase hlist b q).mp hq.right_mem).1
  · rw [if_neg hbn]
    by_cases hbr : r.head? = some b
    · have honly : ∀ q, Adjacent (kids q) a b → q = p := fun q hq =>
        h.unique (hhead b hbr) hq.right_mem
      rw [if_pos hbr.symm, exists_adjacent_update honly]
      obtain ⟨r', rfl⟩ := head?_eq_some_iff.mp hbr
      exact (adjacent_right_iff hnodup).symm
    · rw [if_neg fun heq => hbr heq.symm, h.previous, exists_adjacent_congr]
      rw [hlist, adjacent_insert, adjacent_append]
      simp only [hbr, hbn, and_false, or_false]

theorem detach : (s.detach n).Links (update kids p (l ++ r)) := by
  have hparent := h.parent_of_mem hlist
  have hp : s.Has p := h.owner p n (by rw [hlist]; simp)
  have hhas : ∀ q, s.parent? n = some q → s.Has q := fun q hq => by
    rw [hparent, some.injEq] at hq
    exact hq ▸ hp
  refine ⟨fun q => ?_, fun x q => ?_, fun q => ?_, fun q => ?_, h.next_detach hlist,
    h.previous_detach hlist, fun q x hx => ?_, ?_⟩
  · by_cases hq : q = p
    · rw [hq, update_self]
      exact (h.nodup_erase hlist).2
    · rw [update_of_ne hq]
      exact h.nodup q
  · rw [h.mem_erase hlist, parent?_detach]
    by_cases hx : x = n
    · simp [hx]
    · rw [if_neg hx, h.parent]
      simp [hx]
  · rw [firstChild?_detach hhas, h.previous_eq hlist, h.next_eq hlist, hparent, h.first]
    by_cases hq : q = p
    · subst hq
      rw [update_self, hlist]
      cases l <;> simp
    · rw [update_of_ne hq]
      simp [hq]
  · rw [lastChild?_detach hhas, h.previous_eq hlist, h.next_eq hlist, hparent, h.last]
    by_cases hq : q = p
    · subst hq
      rw [update_self, hlist]
      cases r <;> simp
    · rw [update_of_ne hq]
      simp [hq]
  · have hsize : (s.detach n).size = s.size := size_detach n
    rw [Has, hsize]
    exact h.owner q x ((h.mem_erase hlist x q).mp hx).2
  · obtain ⟨rank, hrank⟩ := h.ranked
    exact ⟨rank, fun q x hx => hrank q x ((h.mem_erase hlist x q).mp hx).2⟩

end Detach

end Links

theorem Consistent.withSymbols (h : s.Consistent) (symbols : Array Symbol) :
    Consistent ⟨s.slots, symbols⟩ := by
  obtain ⟨kids, hlinks⟩ := h
  exact ⟨kids, hlinks.congr rfl rfl rfl rfl rfl (Nat.le_refl _)⟩

end ScriptPress.Store
