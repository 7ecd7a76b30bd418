import Mathlib.Data.List.Sort
import ScriptPress.Proofs.Marks.Usage

/-! # One scan for all symbols -/

namespace ScriptPress

open List

namespace Tree

variable {α : Type} {x : SymbolId}

theorem substitute_eq_self {t : Tree α} (h : ∀ u ∈ t.subtrees, u.kind ≠ .identifier x) :
    t.substitute x k = t := by
  induction t with
  | node m kind cs ih =>
    have hcs : ∀ c ∈ cs, c.substitute x k = c := fun c hc =>
      ih c hc fun u hu => h u (mem_subtrees_node.mpr (.inr ⟨c, hc, hu⟩))
    have hkind : kind ≠ .identifier x := h _ (mem_subtrees_self _)
    rw [substitute_node, if_neg hkind, map_congr_left hcs, map_id']

theorem inlined_of_false {ts : List (Tree α)} (h : (inlined x ts).2 = false) :
    (inlined x ts).1 = ts := by
  rw [inlined] at h ⊢
  cases hconstant : constant? x ts with
  | none => rfl
  | some k =>
    rw [hconstant] at h
    cases honly : onlyNamed x ts with
    | true => simp [honly] at h
    | false =>
      simp only [honly, Bool.false_eq_true, if_false, any_eq_false, decide_eq_true_eq] at h ⊢
      refine (map_congr_left fun t ht => ?_).trans (map_id' ts)
      exact substitute_eq_self fun u hu => h u (mem_subtreesAll.mpr ⟨t, ht, hu⟩)

theorem inlineEach_of_false {xs : List SymbolId} {ts : List (Tree α)}
    (h : (inlineEach xs ts).2 = false) : (inlineEach xs ts).1 = ts := by
  induction xs generalizing ts with
  | nil => rfl
  | cons x xs ih =>
    rw [inlineEach, Bool.or_eq_false_iff] at h
    rw [inlineEach, ih h.2, inlined_of_false h.1]

theorem length_usesAll_bare (ts : List (Tree α)) :
    (usesAll (ts.map bare)).length = (usesAll ts).length := by
  have hmap : ts.map bare = ts.map (map fun _ => ()) := rfl
  rw [hmap, usesAll_map, length_map]

end Tree

theorem Usages.Lists.getD_get? {α : Type} {os : List (Occurrence α)} {us : Usages α}
    (h : Lists os us) (x : SymbolId) : (us.get? x).getD ⟨[], []⟩ = usageOf os x := by
  rw [get?]
  cases hfind : us.find? fun e => e.1 = x with
  | none =>
    refine (usageOf_absent fun hx => ?_).symm
    exact List.find?_eq_none.mp hfind _ ((h.mem x _).mpr ⟨hx, rfl⟩) (by simp)
  | some e =>
    obtain ⟨y, u⟩ := e
    obtain rfl : y = x := by simpa using List.find?_some hfind
    exact ((h.mem y u).mp (mem_of_find?_eq_some hfind)).2

namespace Store

variable {s s' : Store} {roots : List NodeId} {x : SymbolId} {xs : List SymbolId}

open Tree (usesAll)
open Usages (usageOf)

section

variable {ys : List SymbolId} (hxs : xs.Pairwise (·.index < ·.index))

include hxs

theorem nodup_of_ascending : xs.Nodup := by
  refine hxs.imp ?_
  rintro a b hlt rfl
  exact Nat.lt_irrefl _ hlt

theorem sublist_of_ascending (hys : ys.Pairwise (·.index < ·.index)) (hsub : xs ⊆ ys) :
    xs.Sublist ys := by
  have : Std.Antisymm fun a b : SymbolId => a.index < b.index :=
    ⟨fun a b hab hba => absurd hab (Nat.lt_asymm hba)⟩
  exact sublist_of_subperm_of_pairwise ((nodup_of_ascending hxs).subperm hsub) hxs hys

end

/-- Inlines symbols one after the other, each with a new scan of the modules. -/
def inlineRescanning (s : Store) (roots : List NodeId) : List SymbolId → Except Fault (Store × Bool)
  | [] => .ok (s, false)
  | x :: xs => do
    let us ← s.usages roots
    let (s, changed) ← s.inlineSymbol x ((us.get? x).getD ⟨[], []⟩)
    let (s, more) ← s.inlineRescanning roots xs
    return (s, changed || more)

theorem Modules.inlineRescanning_cons {s₁ : Store} {changed : Bool} (hr : s.Modules roots)
    (h : s.inlineSymbol x (usageOf (usesAll (roots.map s.tree)) x) = .ok (s₁, changed)) :
    s.inlineRescanning roots (x :: xs) =
      (s₁.inlineRescanning roots xs).map fun r => (r.1, changed || r.2) := by
  rw [inlineRescanning, hr.usages_eq]
  show (s.inlineSymbol x _ >>= _) = _
  rw [(Usages.lists_ofOccurrences _).getD_get?, h]
  show (s₁.inlineRescanning roots xs >>= _) = _
  cases s₁.inlineRescanning roots xs <;> rfl

structure Inlines (s : Store) (roots : List NodeId) (xs : List SymbolId) (s' : Store) : Prop
    extends Keeps s roots s' where
  trees : roots.map s'.tree = (Tree.inlineEach xs (roots.map s.tree)).1
  trims : Trims s roots s'
  fewer : (Tree.inlineEach xs (roots.map s.tree)).2 →
    (usesAll (roots.map s'.tree)).length < (usesAll (roots.map s.tree)).length

theorem Consistent.inlineRescanning_eq (hs : s.Consistent) (hr : s.Modules roots)
    (xs : List SymbolId) : ∃ s', s.inlineRescanning roots xs =
        .ok (s', (Tree.inlineEach xs (roots.map s.tree)).2) ∧ Inlines s roots xs s' := by
  induction xs generalizing s with
  | nil =>
    obtain ⟨kids, h⟩ := hs
    exact ⟨s, rfl, ⟨⟨kids, h⟩, Nat.le_refl _, rfl, hr, fun _ _ hn => hn⟩, rfl, .refl h roots, by
      intro hflag
      cases hflag⟩
  | cons x xs ih =>
    obtain ⟨kids, h⟩ := hs
    obtain ⟨s₁, hrun, h₁⟩ := h.inlineSymbol_eq hr x
    obtain ⟨s', hrun', h'⟩ := ih h₁.consistent h₁.modules
    obtain ⟨kids₁, hlinks₁⟩ := h₁.consistent
    obtain ⟨kids', hlinks'⟩ := h'.consistent
    refine ⟨s', ?_, h₁.toKeeps.trans h'.toKeeps, ?_,
      h₁.trims.trans h hlinks₁ h'.consistent h'.trims, fun hflag => ?_⟩
    · rw [hr.inlineRescanning_cons hrun, hrun', h₁.trees]
      rfl
    · rw [h'.trees, h₁.trees]
      rfl
    · rw [Tree.inlineEach, ← h₁.trees, Bool.or_eq_true] at hflag
      have hle₁ := h₁.trims.length_usesAll_le h hr hlinks₁ h₁.modules
      have hle' := h'.trims.length_usesAll_le hlinks₁ h₁.modules hlinks' h'.modules
      rcases hflag with hflag | hflag
      · exact Nat.lt_of_le_of_lt hle' (h₁.fewer hflag)
      · exact Nat.lt_of_lt_of_le (h'.fewer hflag) hle₁

theorem inlineSymbol_unused (s : Store) (x : SymbolId) :
    s.inlineSymbol x ⟨[], []⟩ = .ok (s, false) := rfl

theorem Consistent.inlineConstants_eq_rescanning {us : Usages NodeId} (hs : s.Consistent)
    (hr : s.Modules roots) (hsub : (us.map Prod.fst).Sublist xs) (hxs : xs.Nodup)
    (hspec : ∀ e ∈ us, e.2 = usageOf (usesAll (roots.map s.tree)) e.1)
    (hunused : ∀ x ∈ xs, x ∉ us.map Prod.fst → usageOf (usesAll (roots.map s.tree)) x = ⟨[], []⟩) :
    s.inlineConstants us = s.inlineRescanning roots xs := by
  induction xs generalizing s us with
  | nil =>
    obtain rfl : us = [] := by simpa using hsub
    rfl
  | cons x xs ih =>
    rw [nodup_cons] at hxs
    rw [forall_mem_cons] at hunused
    rcases sublist_cons_iff.mp hsub with hsub | ⟨ys, heq, hrest⟩
    · have hx : x ∉ us.map Prod.fst := fun hx => hxs.1 (hsub.subset hx)
      have hstep := s.inlineSymbol_unused x
      rw [← hunused.1 hx] at hstep
      rw [hr.inlineRescanning_cons hstep, ih hs hr hsub hxs.2 hspec hunused.2]
      cases s.inlineRescanning roots xs <;> rfl
    · obtain ⟨⟨y, u⟩, us, rfl, rfl, rfl⟩ := map_eq_cons_iff.mp heq
      rw [forall_mem_cons] at hspec
      obtain rfl : u = usageOf (usesAll (roots.map s.tree)) y := hspec.1
      obtain ⟨kids, h⟩ := hs
      obtain ⟨s₁, hrun, h₁⟩ := h.inlineSymbol_eq hr y
      rw [inlineConstants_cons hrun, hr.inlineRescanning_cons hrun]
      have hne : ∀ z ∈ xs, z ≠ y := fun z hz heq => hxs.1 (heq ▸ hz)
      rw [ih h₁.consistent h₁.modules hrest hxs.2]
      · intro e he
        rw [hspec.2 e he, h₁.others e.1 (hne e.1 (hrest.subset (mem_map_of_mem he)))]
      · intro z hz hnot
        rw [h₁.others z (hne z hz)]
        refine hunused.2 z hz ?_
        rw [map_cons, mem_cons, not_or]
        exact ⟨hne z hz, hnot⟩

/-- Inlining in verified modules with one scan leads to the same store as scanning them again before
every symbol, for all symbols in order. The modules verify, nothing but names, declarations and
their lists has changed, no node mentions a symbol whose declaration was taken out, and the flag
tells whether a module has changed. -/
theorem Verified.inlineConstants_rescans (h : s.Verified roots) :
    ∃ us s' changed, s.usages roots = .ok us ∧ s.inlineConstants us = .ok (s', changed) ∧
      (∀ xs : List SymbolId, xs.Pairwise (·.index < ·.index) → (∀ e ∈ us, e.1 ∈ xs) →
        s.inlineRescanning roots xs = .ok (s', changed)) ∧ s'.Verified roots ∧ Trims s roots s' ∧
      (changed = true ↔ roots.map (fun n => (s'.tree n).bare) ≠
        roots.map fun n => (s.tree n).bare) := by
  have hr := h.modules
  have hlists := Usages.lists_ofOccurrences (usesAll (roots.map s.tree))
  have hspec : ∀ e ∈ Usages.ofOccurrences (usesAll (roots.map s.tree)), e.2 = _ :=
    fun e he => ((hlists.mem e.1 e.2).mp he).2
  have hrescan : ∀ xs : List SymbolId, xs.Pairwise (·.index < ·.index) →
      (∀ e ∈ Usages.ofOccurrences (usesAll (roots.map s.tree)), e.1 ∈ xs) →
      s.inlineConstants (Usages.ofOccurrences (usesAll (roots.map s.tree))) =
        s.inlineRescanning roots xs := by
    intro xs hxs hall
    refine h.consistent.inlineConstants_eq_rescanning hr ?_ (nodup_of_ascending hxs) hspec
      fun x _ hx => ?_
    · exact sublist_of_ascending (pairwise_map.mpr hlists.ordered) hxs
        (forall_mem_map.mpr hall)
    · refine Usages.usageOf_absent fun hused => hx ?_
      exact mem_map.mpr ⟨_, (hlists.mem x _).mpr ⟨hused, rfl⟩, rfl⟩
  obtain ⟨s', hrun, h'⟩ := h.consistent.inlineRescanning_eq hr
    ((Usages.ofOccurrences (usesAll (roots.map s.tree))).map Prod.fst)
  have hfirst := hrescan _ (pairwise_map.mpr hlists.ordered) fun e he =>
    mem_map_of_mem he
  refine ⟨_, s', _, hr.usages_eq, hfirst.trans hrun, fun xs hxs hall => ?_,
    h'.toKeeps.verified, h'.trims, fun hflag heq => ?_, fun hne => ?_⟩
  · rw [← hrescan xs hxs hall, hfirst, hrun]
  · have hlt := h'.fewer hflag
    have hbare : ∀ s : Store, roots.map (fun n => (s.tree n).bare) = (roots.map s.tree).map .bare :=
      fun s => map_map.symm
    rw [← Tree.length_usesAll_bare, ← Tree.length_usesAll_bare (roots.map s.tree), ← hbare,
      ← hbare, heq] at hlt
    exact Nat.lt_irrefl _ hlt
  · by_contra hflag
    rw [Bool.not_eq_true] at hflag
    refine hne ?_
    have hsame := h'.trees.trans (Tree.inlineEach_of_false hflag)
    exact map_congr_left fun n hn => by
      rw [map_inj_left.mp hsame n hn]

def linkedConstants : Store :=
  (Store.empty.grow (.node () .module
    [.node () .varStatement
      [.node () (.variable ⟨0⟩) [.node () (.number 1) []],
        .node () (.variable ⟨1⟩) [.node () (.identifier ⟨0⟩) []]],
      .node () .expression [.node () (.identifier ⟨1⟩) []]])).2

theorem inlineConstants_rescans_linkedConstants :
    linkedConstants.Verified [⟨0⟩] ∧ ∃ us s' changed, linkedConstants.usages [⟨0⟩] = .ok us ∧
      linkedConstants.inlineConstants us = .ok (s', changed) ∧
      linkedConstants.inlineRescanning [⟨0⟩] [⟨0⟩, ⟨1⟩] = .ok (s', changed) ∧
      s'.Verified [⟨0⟩] := by
  have hverified : linkedConstants.Verified [⟨0⟩] :=
    ⟨Consistent.grow ⟨_, Links.empty⟩ _, by decide, forall_mem_singleton.mpr rfl,
      forall_mem_singleton.mpr rfl⟩
  obtain ⟨us, s', changed, husages, hrun, hrescan, h', -⟩ := hverified.inlineConstants_rescans
  refine ⟨hverified, us, s', changed, husages, hrun, hrescan _ (by decide) ?_, h'⟩
  have hscan : linkedConstants.usages [⟨0⟩] =
      .ok [(⟨0⟩, ⟨[⟨5⟩], [⟨2⟩]⟩), (⟨1⟩, ⟨[⟨7⟩], [⟨4⟩]⟩)] := rfl
  obtain rfl := Except.ok.inj (husages.symm.trans hscan)
  simp

end Store

end ScriptPress
