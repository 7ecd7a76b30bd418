import Mathlib.Data.Finset.Card
import Mathlib.Data.Set.Card
import ScriptPress.Proofs.Text.Identifier
import ScriptPress.Proofs.Usage.Scan
import ScriptPress.Usage.Constant
import ScriptPress.Usage.Naming

/-! # Short names -/

namespace ScriptPress

open List Nat Text

namespace Text

variable {forbidden : List String} {fuel count i : Nat}

theorem le_freeIndexWithin (forbidden : List String) (fuel i : Nat) :
    i ≤ freeIndexWithin forbidden fuel i := by
  induction fuel generalizing i with
  | zero => exact le_refl i
  | succ fuel ih =>
    rw [freeIndexWithin]
    split
    · exact le_of_succ_le (ih (i + 1))
    · exact le_refl i

theorem mem_of_freeIndexWithin_mem (h : nthName (freeIndexWithin forbidden fuel i) ∈ forbidden) :
    ∀ k ≤ fuel, nthName (i + k) ∈ forbidden := by
  induction fuel generalizing i with
  | zero =>
    intro k hk
    rw [le_zero.mp hk]
    exact h
  | succ fuel ih =>
    rw [freeIndexWithin] at h
    split at h
    · rename_i hmem
      rintro (_ | k) hk
      · exact hmem
      · rw [← succ_add_eq_add_succ]
        exact ih h k (le_of_succ_le_succ hk)
    · contradiction

theorem nthName_freeIndex (forbidden : List String) (i : Nat) :
    nthName (freeIndex forbidden i) ∉ forbidden := by
  intro hmem
  have hall := mem_of_freeIndexWithin_mem hmem
  have hnodup : ((range (forbidden.length + 1)).map fun k => nthName (i + k)).Nodup := by
    refine nodup_range.map fun k l hkl => ?_
    exact add_left_cancel (nthName_injective hkl)
  have hsubset : (range (forbidden.length + 1)).map (fun k => nthName (i + k)) ⊆
      forbidden := by
    intro name hname
    obtain ⟨k, hk, rfl⟩ := mem_map.mp hname
    exact hall k (le_of_lt_succ (mem_range.mp hk))
  have hle := (subperm_of_subset hnodup hsubset).length_le
  rw [length_map, length_range] at hle
  omega

theorem exists_ranks (forbidden : List String) (count i : Nat) :
    ∃ ranks : List Nat, freeNames forbidden count i = ranks.map nthName ∧
      ranks.length = count ∧ ranks.Pairwise (· < ·) ∧
      ∀ j ∈ ranks, i ≤ j ∧ nthName j ∉ forbidden := by
  induction count generalizing i with
  | zero => exact ⟨[], rfl, rfl, .nil, by simp⟩
  | succ count ih =>
    obtain ⟨ranks, hnames, hlength, hsorted, hranks⟩ := ih (freeIndex forbidden i + 1)
    refine ⟨freeIndex forbidden i :: ranks, ?_, ?_, ?_, ?_⟩
    · rw [freeNames, hnames, map_cons]
    · rw [length_cons, hlength]
    · exact pairwise_cons.mpr ⟨fun j hj => (hranks j hj).1, hsorted⟩
    · rw [forall_mem_cons]
      have hle : i ≤ freeIndex forbidden i := le_freeIndexWithin _ _ _
      refine ⟨⟨hle, nthName_freeIndex forbidden i⟩, fun j hj => ⟨?_, (hranks j hj).2⟩⟩
      exact le_trans hle (le_of_succ_le (hranks j hj).1)

end Text

namespace Store

variable {α : Type} {s s' : Store} {us : Usages α} {x y : SymbolId}

theorem symbols_renameSymbol (s : Store) (x : SymbolId) (name : String) (i : Nat) :
    (s.renameSymbol x name).symbols[i]? =
      if x.index = i then s.symbols[i]?.map fun symbol => { symbol with name } else
        s.symbols[i]? :=
  Array.getElem?_modify

structure Renames (s : Store) (pairs : List (SymbolId × String)) (s' : Store) : Prop where
  slots : s'.slots = s.slots
  renamed : ∀ x name, (x, name) ∈ pairs →
    s'.symbols[x.index]? = s.symbols[x.index]?.map fun symbol => { symbol with name }
  kept : ∀ x : SymbolId, x ∉ pairs.map Prod.fst → s'.symbols[x.index]? = s.symbols[x.index]?

theorem renames_foldl {pairs : List (SymbolId × String)} (h : (pairs.map Prod.fst).Nodup)
    (s : Store) :
    Renames s pairs (pairs.foldl (fun s (symbol, name) => s.renameSymbol symbol name) s) := by
  induction pairs generalizing s with
  | nil => exact ⟨rfl, by simp, fun _ _ => rfl⟩
  | cons p pairs ih =>
    obtain ⟨x, name⟩ := p
    obtain ⟨hout, hpairs⟩ := nodup_cons.mp h
    have hrest := ih hpairs (s.renameSymbol x name)
    have hother : ∀ y : SymbolId, y ≠ x →
        (s.renameSymbol x name).symbols[y.index]? = s.symbols[y.index]? := by
      intro y hy
      rw [symbols_renameSymbol, if_neg (Usages.index_ne hy.symm)]
    refine ⟨hrest.slots, fun y name' hy => ?_, fun y hy => ?_⟩
    · rcases mem_cons.mp hy with heq | hmem
      · cases heq
        exact (hrest.kept _ hout).trans ((symbols_renameSymbol _ _ _ _).trans (if_pos rfl))
      · have hne : y ≠ x := by
          rintro rfl
          exact hout (mem_map.mpr ⟨_, hmem, rfl⟩)
        rw [← hother y hne]
        exact hrest.renamed y name' hmem
    · rw [map_cons, mem_cons, not_or] at hy
      exact (hrest.kept y hy.2).trans (hother y hy.1)

namespace Renames

variable {pairs : List (SymbolId × String)}

theorem symbolName_eq (h : Renames s pairs s') (hx : (x, name) ∈ pairs)
    (hin : x.index < s.symbols.size) : s'.symbolName x = name := by
  rw [symbolName, h.renamed x name hx, Array.getElem?_eq_getElem hin]
  rfl

theorem isPinned_eq (h : Renames s pairs s') (x : SymbolId) : s'.isPinned x = s.isPinned x := by
  rw [isPinned, isPinned]
  by_cases hx : x ∈ pairs.map Prod.fst
  · obtain ⟨⟨y, name⟩, hmem, rfl⟩ := mem_map.mp hx
    rw [h.renamed y name hmem]
    cases s.symbols[y.index]? <;> rfl
  · rw [h.kept x hx]

theorem symbolName_kept (h : Renames s pairs s') (hx : x ∉ pairs.map Prod.fst) :
    s'.symbolName x = s.symbolName x := by
  rw [symbolName, h.kept x hx, symbolName]

end Renames

def Renamable (s : Store) (us : Usages α) (x : SymbolId) : Prop :=
  (∃ u, (x, u) ∈ us) ∧ s.isPinned x = false

def choosers (s : Store) (us : Usages α) : Usages α :=
  (us.filter fun entry => !s.isPinned entry.1).mergeSort precedes

theorem mem_choosers {e : SymbolId × Usage α} :
    e ∈ s.choosers us ↔ e ∈ us ∧ s.isPinned e.1 = false := by
  rw [choosers, mem_mergeSort, mem_filter, Bool.not_eq_true']

theorem sorted_choosers (s : Store) (us : Usages α) :
    (s.choosers us).Pairwise fun a b => precedes a b := by
  apply pairwise_mergeSort
  · intro a b c hab hbc
    simp only [precedes, Bool.or_eq_true, Bool.and_eq_true, decide_eq_true_eq, beq_iff_eq] at *
    omega
  · intro a b
    simp only [precedes, Bool.or_eq_true, Bool.and_eq_true, decide_eq_true_eq, beq_iff_eq]
    omega

theorem nodup_renamingOrder (h : us.Ordered) : (s.renamingOrder us).Nodup := by
  have hkeys : (us.map Prod.fst).Nodup :=
    pairwise_map.mpr (h.imp fun hlt heq => Nat.ne_of_lt hlt (congrArg SymbolId.index heq))
  rw [renamingOrder, ((mergeSort_perm _ _).map _).nodup_iff]
  exact hkeys.sublist (filter_sublist.map _)

theorem mem_renamingOrder : x ∈ s.renamingOrder us ↔ s.Renamable us x := by
  have hmap : s.renamingOrder us = (s.choosers us).map Prod.fst := rfl
  rw [hmap, mem_map]
  constructor
  · rintro ⟨⟨y, u⟩, he, rfl⟩
    obtain ⟨hmem, hpinned⟩ := mem_choosers.mp he
    exact ⟨⟨u, hmem⟩, hpinned⟩
  · rintro ⟨⟨u, hmem⟩, hpinned⟩
    exact ⟨(x, u), mem_choosers.mpr ⟨hmem, hpinned⟩, rfl⟩

theorem mem_pinnedNames (hx : s.isPinned x) : s.symbolName x ∈ s.pinnedNames := by
  rw [isPinned] at hx
  rw [symbolName]
  cases hsymbol : s.symbols[x.index]? with
  | none =>
    rw [hsymbol] at hx
    cases hx
  | some symbol =>
    rw [hsymbol] at hx
    have hmem : symbol ∈ s.symbols.toList :=
      Array.mem_toList_iff.mpr (Array.mem_of_getElem? hsymbol)
    exact mem_map_of_mem (mem_filter.mpr ⟨hmem, hx⟩)

/-- `s'` is the store with short names for the symbols of a scan, and `count` says how many of
them have been renamed. -/
structure Shortened (s : Store) (us : Usages α) (s' : Store) (count : Nat) : Prop where
  slots : s'.slots = s.slots
  pinned : ∀ x, s'.isPinned x = s.isPinned x
  kept : ∀ x, ¬s.Renamable us x → s'.symbolName x = s.symbolName x
  isIdentifier : ∀ x, s.Renamable us x → isIdentifier (s'.symbolName x)
  not_reserved : ∀ x, s.Renamable us x → s'.symbolName x ∉ reservedWords
  ne_pinned : ∀ x y, s.Renamable us x → s.isPinned y → s'.symbolName x ≠ s'.symbolName y
  distinct : ∀ x y, s.Renamable us x → s.Renamable us y → s'.symbolName x = s'.symbolName y → x = y
  shorter : ∀ x y u v, s.Renamable us x → s.Renamable us y → (x, u) ∈ us → (y, v) ∈ us →
    v.count < u.count → (s'.symbolName x).length ≤ (s'.symbolName y).length
  count : count = {x | s.Renamable us x}.ncard

theorem shortenNames_ranks (h : us.Ordered) :
    ∃ ranks : List Nat, ranks.length = (s.choosers us).length ∧ ranks.Pairwise (· < ·) ∧
      (∀ j ∈ ranks, nthName j ∉ reservedWords ++ s.pinnedNames) ∧
      Renames s ((s.renamingOrder us).zip (ranks.map nthName)) (s.shortenNames us).1 := by
  obtain ⟨ranks, hnames, hlength, hsorted, hfree⟩ :=
    exists_ranks (reservedWords ++ s.pinnedNames) (s.renamingOrder us).length 0
  have horder : (s.renamingOrder us).length = (s.choosers us).length := length_map _
  refine ⟨ranks, hlength.trans horder, hsorted, fun j hj => (hfree j hj).2, ?_⟩
  have hkeys : (((s.renamingOrder us).zip (ranks.map nthName)).map Prod.fst).Nodup := by
    rw [map_fst_zip (by rw [length_map, hlength])]
    exact nodup_renamingOrder h
  rw [shortenNames, hnames]
  exact renames_foldl hkeys s

theorem rel_of_getElem? {β : Type} {R : β → β → Prop} {l : List β} (h : l.Pairwise R) {i j : Nat}
    {a b : β} (ha : l[i]? = some a) (hb : l[j]? = some b) (hij : i < j) : R a b := by
  obtain ⟨hi, rfl⟩ := List.getElem?_eq_some_iff.mp ha
  obtain ⟨hj, rfl⟩ := List.getElem?_eq_some_iff.mp hb
  exact pairwise_iff_getElem.mp h i j hi hj hij

theorem shortened_shortenNames (h : us.Ordered)
    (htable : ∀ x u, (x, u) ∈ us → x.index < s.symbols.size) :
    Shortened s us (s.shortenNames us).1 (s.shortenNames us).2 := by
  obtain ⟨ranks, hlength, hsorted, hfree, hrenames⟩ := shortenNames_ranks (s := s) h
  have hkeys : ((s.renamingOrder us).zip (ranks.map nthName)).map Prod.fst =
      s.renamingOrder us := by
    apply map_fst_zip
    rw [length_map, hlength]
    exact le_of_eq (length_map _)
  -- The entry at a place of the order gets the name of the rank at that place.
  have hplace : ∀ x u, s.Renamable us x → (x, u) ∈ us →
      ∃ k j : Nat, (s.choosers us)[k]? = some (x, u) ∧ ranks[k]? = some j ∧
        (s.shortenNames us).1.symbolName x = nthName j := by
    intro x u hx hu
    obtain ⟨k, hk⟩ := mem_iff_getElem?.mp (mem_choosers.mpr ⟨hu, hx.2⟩)
    have hlt : k < ranks.length := hlength ▸ (List.getElem?_eq_some_iff.mp hk).1
    have hj : ranks[k]? = some ranks[k] := getElem?_eq_getElem hlt
    refine ⟨k, ranks[k], hk, hj, hrenames.symbolName_eq ?_ (htable x u hu)⟩
    refine mem_of_getElem? (i := k) (getElem?_zip_eq_some.mpr ⟨?_, ?_⟩)
    · show ((s.choosers us).map Prod.fst)[k]? = _
      rw [getElem?_map, hk]
      rfl
    · rw [getElem?_map, hj]
      rfl
  have hname : ∀ x, s.Renamable us x →
      ∃ j ∈ ranks, (s.shortenNames us).1.symbolName x = nthName j := by
    intro x hx
    obtain ⟨u, hu⟩ := hx.1
    obtain ⟨k, j, -, hj, hxj⟩ := hplace x u hx hu
    exact ⟨j, mem_of_getElem? hj, hxj⟩
  have hkept : ∀ x, ¬s.Renamable us x → (s.shortenNames us).1.symbolName x = s.symbolName x := by
    intro x hx
    apply hrenames.symbolName_kept
    rw [hkeys, mem_renamingOrder]
    exact hx
  refine ⟨hrenames.slots, hrenames.isPinned_eq, hkept, ?_, ?_, ?_, ?_, ?_, ?_⟩
  · intro x hx
    obtain ⟨j, -, hxj⟩ := hname x hx
    rw [hxj]
    exact isIdentifier_nthName j
  · intro x hx hmem
    obtain ⟨j, hj, hxj⟩ := hname x hx
    exact hfree j hj (mem_append_left _ (hxj ▸ hmem))
  · intro x y hx hy heq
    obtain ⟨j, hj, hxj⟩ := hname x hx
    have hpinned : ¬s.Renamable us y := by
      rintro ⟨-, hnot⟩
      rw [hy] at hnot
      cases hnot
    rw [hxj, hkept y hpinned] at heq
    exact hfree j hj (mem_append_right _ (heq ▸ mem_pinnedNames hy))
  · intro x y hx hy heq
    obtain ⟨u, hu⟩ := hx.1
    obtain ⟨v, hv⟩ := hy.1
    obtain ⟨k, i, hk, hi, hxi⟩ := hplace x u hx hu
    obtain ⟨l, j, hl, hj, hyj⟩ := hplace y v hy hv
    rw [hxi, hyj] at heq
    obtain rfl := nthName_injective heq
    have hkl : k = l := by
      rcases lt_trichotomy k l with hlt | heq | hlt
      · exact absurd (rel_of_getElem? hsorted hi hj hlt) (lt_irrefl i)
      · exact heq
      · exact absurd (rel_of_getElem? hsorted hj hi hlt) (lt_irrefl i)
    rw [hkl, hl] at hk
    cases hk
    rfl
  · intro x y u v hx hy hu hv hcount
    obtain ⟨k, i, hk, hi, hxi⟩ := hplace x u hx hu
    obtain ⟨l, j, hl, hj, hyj⟩ := hplace y v hy hv
    rw [hxi, hyj]
    apply length_nthName_mono
    rcases lt_trichotomy k l with hlt | rfl | hlt
    · exact le_of_lt (rel_of_getElem? hsorted hi hj hlt)
    · rw [hi] at hj
      cases hj
      exact le_refl i
    · -- The symbol with more uses chooses first.
      have hprecedes := rel_of_getElem? (sorted_choosers s us) hl hk hlt
      simp only [precedes, Bool.or_eq_true, Bool.and_eq_true, decide_eq_true_eq,
        beq_iff_eq] at hprecedes
      omega
  · have hset : {x | s.Renamable us x} = ((s.renamingOrder us).toFinset : Set SymbolId) := by
      ext x
      rw [Finset.mem_coe, mem_toFinset, mem_renamingOrder]
      rfl
    rw [hset, Set.ncard_coe_finset, toFinset_card_of_nodup (nodup_renamingOrder h)]
    rfl

/-- Shortening the names that occur in some trees of a store never makes two symbols collide. -/
theorem shortenNames_collisionFree {roots : List NodeId} {us : Usages NodeId}
    (hscan : s.usages roots = .ok us) (htable : ∀ x u, (x, u) ∈ us → x.index < s.symbols.size) :
    Shortened s us (s.shortenNames us).1 (s.shortenNames us).2 := by
  apply shortened_shortenNames _ htable
  rw [usages, Usages.ofTrees] at hscan
  cases hlists : (roots.map s.tree).mapM (Tree.occurrences false) with
  | error f =>
    rw [hlists] at hscan
    cases hscan
  | ok os =>
    rw [hlists] at hscan
    cases hscan
    exact (Usages.lists_ofOccurrences os.flatten).ordered

def crowdedCall : Store :=
  { (Store.empty.grow (.node () .module
      [.node () .expression
        [.node () .call
          [.node () (.identifier ⟨0⟩) [], .node () (.identifier ⟨1⟩) [],
            .node () (.identifier ⟨2⟩) [], .node () (.identifier ⟨2⟩) []]]])).2 with
    symbols := #[⟨"a", true⟩, ⟨"rare", false⟩, ⟨"often", false⟩, ⟨"unused", false⟩] }

theorem shortenNames_collisionFree_crowdedCall : ∃ us, crowdedCall.usages [⟨0⟩] = .ok us ∧
      (∀ x u, (x, u) ∈ us → x.index < crowdedCall.symbols.size) ∧
      Shortened crowdedCall us (crowdedCall.shortenNames us).1 (crowdedCall.shortenNames us).2 ∧
      (crowdedCall.shortenNames us).2 = 2 ∧ (crowdedCall.shortenNames us).1.symbolName ⟨0⟩ = "a" ∧
      (crowdedCall.shortenNames us).1.symbolName ⟨3⟩ = "unused" := by
  have hscan : crowdedCall.usages [⟨0⟩] =
      .ok [(⟨0⟩, ⟨[⟨3⟩], []⟩), (⟨1⟩, ⟨[⟨4⟩], []⟩), (⟨2⟩, ⟨[⟨5⟩, ⟨6⟩], []⟩)] := rfl
  have htable : ∀ x u, (x, u) ∈ ([(⟨0⟩, ⟨[⟨3⟩], []⟩), (⟨1⟩, ⟨[⟨4⟩], []⟩),
      (⟨2⟩, ⟨[⟨5⟩, ⟨6⟩], []⟩)] : Usages NodeId) → x.index < crowdedCall.symbols.size := by
    show ∀ (x : SymbolId) u, _ → x.index < 4
    simp only [mem_cons, not_mem_nil, Prod.mk.injEq, or_false]
    rintro x u (⟨rfl, -⟩ | ⟨rfl, -⟩ | ⟨rfl, -⟩) <;> decide
  have h := shortenNames_collisionFree hscan htable
  refine ⟨_, hscan, htable, h, ?_, ?_, ?_⟩
  · show (renamingOrder _ _).length = 2
    rw [renamingOrder, length_map, length_mergeSort]
    rfl
  · exact h.kept ⟨0⟩ fun hx => Bool.noConfusion hx.2
  · refine h.kept ⟨3⟩ fun hx => ?_
    obtain ⟨⟨u, hu⟩, -⟩ := hx
    simp at hu

end Store

end ScriptPress
