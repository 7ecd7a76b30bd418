import Mathlib.Data.List.Induction
import Mathlib.Data.List.Nodup
import Mathlib.Data.List.Perm.Subperm
import ScriptPress.Proofs.Store.Forest
import ScriptPress.Proofs.Tree.Basic
import ScriptPress.Proofs.Tree.Shape

/-! # Reading a store -/

namespace ScriptPress.Store

open List

/-- The nodes along a link, all the way to its end. -/
inductive Follows (link : NodeId → Option NodeId) : Option NodeId → List NodeId → Prop
  | done : Follows link none []
  | step {n : NodeId} {l : List NodeId} (h : Follows link (link n) l) :
    Follows link (some n) (n :: l)

section Follows

variable {link : NodeId → Option NodeId} {o : Option NodeId} {l : List NodeId}

theorem Follows.chain_eq (h : Follows link o l) :
    ∀ fuel, l.length ≤ fuel → chain link fuel o = l := by
  induction h with
  | done =>
    intro fuel _
    cases fuel <;> rfl
  | @step n l _ ih =>
    intro fuel hfuel
    cases fuel with
    | zero => cases hfuel
    | succ fuel => rw [chain, ih fuel (Nat.le_of_succ_le_succ hfuel)]

theorem follows_chain : ∀ (fuel : Nat) (o : Option NodeId), (chain link fuel o).length < fuel →
    Follows link o (chain link fuel o)
  | 0, _, h => by cases h
  | _ + 1, none, _ => .done
  | fuel + 1, some n, h => .step (follows_chain fuel (link n) (Nat.lt_of_succ_lt_succ h))

theorem Follows.mem_iff (h : Follows link o l) (a : NodeId) :
    a ∈ l ↔ ∃ m, o = some m ∧ Relation.ReflTransGen (fun x y => link x = some y) m a := by
  induction h with
  | done => simp
  | @step n l _ ih =>
    rw [mem_cons, ih]
    constructor
    · rintro (rfl | ⟨m, hm, hma⟩)
      · exact ⟨a, rfl, .refl⟩
      · exact ⟨n, rfl, .head hm hma⟩
    · rintro ⟨m, hm, hma⟩
      cases hm
      rcases hma.cases_head with rfl | ⟨m, hm, hma⟩
      · exact .inl rfl
      · exact .inr ⟨m, hm, hma⟩

end Follows

theorem index_injective : Function.Injective NodeId.index :=
  fun ⟨_⟩ ⟨_⟩ h => congrArg NodeId.mk h

theorem length_le_size {s : Store} {l : List NodeId} (hl : l.Nodup) (h : ∀ n ∈ l, s.Has n) :
    l.length ≤ s.size := by
  have hsub : l.map NodeId.index ⊆ range s.size := by
    intro i hi
    obtain ⟨n, hn, rfl⟩ := mem_map.mp hi
    exact mem_range.mpr (h n hn)
  simpa using (subperm_of_subset (hl.map index_injective) hsub).length_le

namespace Links

variable {s : Store} {kids : NodeId → List NodeId} {p n : NodeId} {l r : List NodeId}

section

variable (h : s.Links kids)
include h

theorem follows_next (hp : kids p = l ++ r) : Follows s.next? r.head? r := by
  induction r generalizing l with
  | nil => exact .done
  | cons n r ih =>
    refine .step ?_
    rw [h.next_eq hp]
    exact ih (l := l ++ [n]) (by rw [hp, append_assoc]; rfl)

theorem follows_previous (hp : kids p = l ++ r) : Follows s.previous? l.getLast? l.reverse := by
  induction l using reverseRecOn generalizing r with
  | nil => exact .done
  | append_singleton l n ih =>
    rw [append_assoc, singleton_append] at hp
    rw [getLast?_concat, reverse_concat]
    refine .step ?_
    rw [h.previous_eq hp]
    exact ih hp

theorem follows_children (p : NodeId) : Follows s.next? (s.firstChild? p) (kids p) := by
  rw [h.first]
  exact h.follows_next (l := []) rfl

theorem children_eq : s.children = kids := by
  funext p
  exact (h.follows_children p).chain_eq _
    (length_le_size (h.nodup p) fun c hc => h.has hc)

theorem rank_lt {rank : NodeId → Nat} (hrank : ∀ p c, c ∈ kids p → rank c < rank p) {a : NodeId}
    (ha : s.Above a n) : rank n < rank a := by
  induction ha with
  | single hp => exact hrank _ _ ((h.parent _ _).mp hp)
  | tail _ hp ih => exact Nat.lt_trans ih (hrank _ _ ((h.parent _ _).mp hp))

theorem not_above_self (n : NodeId) : ¬s.Above n n := by
  obtain ⟨rank, hrank⟩ := h.ranked
  exact fun hn => Nat.lt_irrefl _ (h.rank_lt hrank hn)

theorem follows_ancestors (n : NodeId) : Follows s.parent? (s.parent? n) (s.ancestors n) := by
  obtain ⟨rank, hrank⟩ := h.ranked
  -- Ranks increase along the chain, so it visits no node twice and never comes back to its start.
  have hsorted : ∀ fuel n,
      (n :: chain s.parent? fuel (s.parent? n)).Pairwise (fun x y => rank x < rank y) ∧
        ∀ x ∈ chain s.parent? fuel (s.parent? n), s.Has x := by
    intro fuel
    induction fuel with
    | zero => simp [chain]
    | succ fuel ih =>
      intro n
      cases hp : s.parent? n with
      | none => simp [chain]
      | some p =>
        have hmem := (h.parent n p).mp hp
        obtain ⟨hpairwise, hhas⟩ := ih p
        rw [chain]
        refine ⟨pairwise_cons.mpr ⟨fun x hx => ?_, hpairwise⟩, ?_⟩
        · have hnp := hrank p n hmem
          rcases mem_cons.mp hx with rfl | hx
          · exact hnp
          · exact Nat.lt_trans hnp ((pairwise_cons.mp hpairwise).1 x hx)
        · rw [forall_mem_cons]
          exact ⟨h.owner p n hmem, hhas⟩
  cases hp : s.parent? n with
  | none =>
    rw [ancestors, hp]
    cases s.size <;> exact .done
  | some p =>
    obtain ⟨hpairwise, hhas⟩ := hsorted s.size n
    have hnodup : (n :: chain s.parent? s.size (s.parent? n)).Nodup :=
      hpairwise.imp fun hlt heq => by
        rw [heq] at hlt
        exact Nat.lt_irrefl _ hlt
    have hlength := length_le_size hnodup fun x hx => by
      rcases mem_cons.mp hx with rfl | hx
      · exact h.has ((h.parent x p).mp hp)
      · exact hhas x hx
    rw [← hp]
    exact follows_chain _ _ hlength

theorem mem_ancestors (a n : NodeId) : a ∈ s.ancestors n ↔ s.Above a n := by
  rw [(h.follows_ancestors n).mem_iff, Above, Relation.TransGen.head'_iff]

end

theorem mark_treeWithin (s : Store) (fuel : Nat) (n : NodeId) : (s.treeWithin fuel n).mark = n := by
  cases fuel <;> rfl

theorem treeWithin_succ (h : s.Links kids) {rank : NodeId → Nat}
    (hrank : ∀ p c, c ∈ kids p → rank c < rank p) : ∀ (fuel : Nat) (n : NodeId)
      (path : List NodeId), (n :: path).Pairwise (fun x y => rank x < rank y) →
      (∀ x ∈ path, s.Has x) → s.size ≤ fuel + path.length →
      s.treeWithin (fuel + 1) n = s.treeWithin fuel n := by
  intro fuel
  have hpath : ∀ (n : NodeId) (path : List NodeId) (c : NodeId),
      (n :: path).Pairwise (fun x y => rank x < rank y) → (∀ x ∈ path, s.Has x) → c ∈ kids n →
      (c :: n :: path).Pairwise (fun x y => rank x < rank y) ∧ ∀ x ∈ n :: path, s.Has x := by
    intro n path c hsorted hhas hc
    have hcn := hrank n c hc
    refine ⟨pairwise_cons.mpr ⟨fun x hx => ?_, hsorted⟩, ?_⟩
    · rcases mem_cons.mp hx with rfl | hx
      · exact hcn
      · exact Nat.lt_trans hcn ((pairwise_cons.mp hsorted).1 x hx)
    · rw [forall_mem_cons]
      exact ⟨h.owner n c hc, hhas⟩
  induction fuel with
  | zero =>
    intro n path hsorted hhas hsize
    have hnil : s.children n = [] := by
      rw [h.children_eq, eq_nil_iff_forall_not_mem]
      intro c hc
      obtain ⟨-, hhas'⟩ := hpath n path c hsorted hhas hc
      have hnodup : (n :: path).Nodup := hsorted.imp fun hlt heq => by
        rw [heq] at hlt
        exact Nat.lt_irrefl _ hlt
      have hlength := length_le_size hnodup hhas'
      rw [length_cons] at hlength
      omega
    rw [treeWithin, treeWithin, hnil]
    rfl
  | succ fuel ih =>
    intro n path hsorted hhas hsize
    rw [treeWithin, treeWithin, h.children_eq]
    congr 1
    refine map_congr_left fun c hc => ?_
    obtain ⟨hsorted', hhas'⟩ := hpath n path c hsorted hhas hc
    exact ih c (n :: path) hsorted' hhas' (by rw [length_cons]; omega)

theorem tree_eq (h : s.Links kids) (n : NodeId) :
    s.tree n = .node n (s.kind n) ((s.children n).map s.tree) := by
  obtain ⟨rank, hrank⟩ := h.ranked
  rw [tree, ← h.treeWithin_succ hrank s.size n [] (by simp) (by simp) (by simp)]
  rfl

theorem verify_eq (h : s.Links kids) (n : NodeId) : s.verify n = (s.tree n).check := by
  have hwithin : ∀ fuel n, s.verifyTree (s.treeWithin fuel n) = (s.treeWithin fuel n).check := by
    intro fuel
    induction fuel with
    | zero =>
      intro n
      rw [treeWithin, verifyTree, Tree.check]
      rfl
    | succ fuel ih =>
      intro n
      have hchildren : ∀ cs : List NodeId, (∀ c ∈ cs, c ∈ s.children n) →
          (cs.map (s.treeWithin fuel)).forM (fun c =>
            if s.parent? c.mark = some n then Except.ok ()
            else Except.error (Fault.staleParent c.kind (s.kind n))) = .ok () ∧
          s.verifyAll (cs.map (s.treeWithin fuel)) =
            Tree.checkAll (cs.map (s.treeWithin fuel)) := by
        intro cs
        induction cs with
        | nil => exact fun _ => ⟨rfl, by rw [map_nil, verifyAll, Tree.checkAll]⟩
        | cons c cs ihs =>
          intro hcs
          rw [forall_mem_cons, h.children_eq] at hcs
          obtain ⟨hforM, hall⟩ := ihs (by rw [h.children_eq]; exact hcs.2)
          refine ⟨?_, by rw [map_cons, verifyAll, Tree.checkAll, ih, hall]⟩
          rw [List.map_cons, List.forM, mark_treeWithin, (h.parent c n).mpr hcs.1,
            if_pos rfl, hforM]
          rfl
      obtain ⟨hforM, hall⟩ := hchildren _ fun _ hc => hc
      rw [treeWithin, verifyTree, Tree.check, hforM, hall]
      rfl
  exact hwithin s.size n

theorem verify_eq_ok (h : s.Links kids) : s.verify n = .ok () ↔ (s.tree n).WellShaped := by
  rw [h.verify_eq]
  rfl

end Links

section Verify

variable {s : Store} {n : NodeId}

theorem verifyTree_of_verifyAll : ∀ {cs : List (Tree NodeId)}, s.verifyAll cs = .ok () →
    ∀ c ∈ cs, s.verifyTree c = .ok ()
  | [], _ => nofun
  | c :: cs, h => by
    rw [verifyAll] at h
    rcases hc : s.verifyTree c with e | u
    · simp [hc, bind, Except.bind] at h
    · rw [hc] at h
      exact forall_mem_cons.mpr ⟨hc, verifyTree_of_verifyAll h⟩

theorem wellShaped_of_verify (h : s.verify n = .ok ()) : (s.tree n).WellShaped := by
  have htree : ∀ t : Tree NodeId, s.verifyTree t = .ok () → t.WellShaped := by
    intro t
    induction t with
    | node m k cs ih =>
      intro ht
      rw [verifyTree] at ht
      rcases hparents : cs.forM fun c => if s.parent? c.mark = some m then Except.ok ()
          else Except.error (Fault.staleParent c.kind k) with e | u
      · simp [hparents, bind, Except.bind] at ht
      rcases hkinds : k.checkChildren (cs.map Tree.kind) with e | u
      · simp [hparents, hkinds, bind, Except.bind] at ht
      rw [hparents, hkinds] at ht
      exact Tree.wellShaped_node.mpr
        ⟨hkinds, fun c hc => ih c hc (verifyTree_of_verifyAll ht c hc)⟩
  exact htree _ h

end Verify

end ScriptPress.Store
