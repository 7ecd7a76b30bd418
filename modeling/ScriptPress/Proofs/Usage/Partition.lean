import ScriptPress.Proofs.Usage.Modules

/-! # A scan divides the nodes of a tree -/

namespace ScriptPress

open List

namespace Tree

variable {α : Type} {t : Tree α} {p : Bool × Tree α}

theorem mem_placedAll (h : p ∈ placedAll target cs) :
    ∃ (i : Nat) (c : Tree α), cs[i]? = some c ∧ p ∈ c.placed (target && i == 0) := by
  induction cs generalizing target with
  | nil => cases h
  | cons c cs ih =>
    rw [placedAll, mem_append] at h
    rcases h with h | h
    · exact ⟨0, c, rfl, by simpa using h⟩
    · obtain ⟨i, d, hi, hd⟩ := ih h
      exact ⟨i + 1, d, hi, by simpa using hd⟩

theorem mem_placed (h : p ∈ t.placed target) : p = (target, t) ∨
    ∃ w ∈ t.subtrees, ∃ i : Nat, w.children[i]? = some p.2 ∧
      p.1 = (w.kind.writesFirst && i == 0) := by
  induction t generalizing target with
  | node m k cs ih =>
    rw [placed, mem_cons] at h
    refine h.imp_right fun h => ?_
    obtain ⟨i, c, hi, hc⟩ := mem_placedAll h
    have hmem := mem_of_getElem? hi
    rcases ih c hmem hc with rfl | ⟨w, hw, hplace⟩
    · exact ⟨_, mem_subtrees_self _, i, hi, rfl⟩
    · exact ⟨w, mem_subtrees_node.mpr (.inr ⟨c, hmem, hw⟩), hplace⟩

end Tree

namespace Usages

variable {α : Type}

def entries (us : Usages α) : List (Occurrence α) :=
  us.flatMap fun e => e.2.reads.map (⟨e.1, .read, ·⟩) ++ e.2.writes.map (⟨e.1, .write, ·⟩)

theorem entries_record (o : Occurrence α) (us : Usages α) :
    (record o us).entries.Perm (o :: us.entries) := by
  obtain ⟨x, a, m⟩ := o
  induction us with
  | nil => cases a <;> exact .refl _
  | cons e us ih =>
    obtain ⟨y, u⟩ := e
    rw [record]
    split
    · cases a <;> exact .refl _
    · split
      · rename_i heq
        obtain rfl : x = y := heq
        rw [entries, flatMap_cons, entries, flatMap_cons, ← cons_append]
        refine Perm.append_right _ ?_
        cases a with
        | read =>
          rw [merge, single, append_nil, map_append, append_assoc]
          exact perm_middle
        | write =>
          rw [merge, single, append_nil, map_append, ← append_assoc]
          exact perm_append_singleton _ _
      · simp only [entries, flatMap_cons] at ih ⊢
        exact (ih.append_left _).trans perm_middle

theorem entries_ofOccurrences (os : List (Occurrence α)) : (ofOccurrences os).entries.Perm os := by
  have hfold : ∀ us : Usages α,
      (os.foldl (fun us o => record o us) us).entries.Perm (us.entries ++ os) := by
    induction os with
    | nil => exact fun us => by rw [foldl_nil, append_nil]
    | cons o os ih =>
      intro us
      refine (ih _).trans (((entries_record o us).append_right os).trans ?_)
      exact perm_middle.symm
  exact hfold []

end Usages

namespace Store

variable {s : Store} {kids : NodeId → List NodeId} {n y : NodeId}

/-- A node of the tree at `n` writes to `y`: `y` is the operand of an update, the left side of an
assignment or the head of a for-in loop there. -/
def WrittenIn (s : Store) (n y : NodeId) : Prop :=
  ∃ p ∈ (s.tree n).preorder, s.firstChild? p = some y ∧ (s.kind p).writesFirst

theorem Links.not_writtenIn_self (h : s.Links kids) : ¬s.WrittenIn n n := by
  rintro ⟨p, hp, hfirst, -⟩
  have hparent := (h.parent n p).mpr (mem_of_head? (h.first p ▸ hfirst))
  refine h.not_above_self n ?_
  rcases (h.mem_preorder n p).mp hp with rfl | habove
  · exact .single hparent
  · exact .head hparent habove

theorem Links.writtenIn_of_placed (h : s.Links kids) {b : Bool}
    (hp : (b, s.tree y) ∈ (s.tree n).placed false) : b = true ↔ s.WrittenIn n y := by
  rcases Tree.mem_placed hp with heq | ⟨w, hw, i, hi, hb⟩
  · obtain ⟨rfl, htree⟩ := Prod.mk.inj heq
    obtain rfl : y = n := by rw [← h.mark_tree y, htree, h.mark_tree]
    simp [h.not_writtenIn_self]
  · obtain ⟨p, hmem, rfl⟩ := (h.mem_subtrees n w).mp hw
    rw [h.children_tree, getElem?_map, Option.map_eq_some_iff] at hi
    obtain ⟨c, hc, htree⟩ := hi
    obtain rfl : c = y := by rw [← h.mark_tree c, htree, h.mark_tree]
    have hi : i = 0 ↔ s.firstChild? p = some c := by
      rw [h.first, head?_eq_getElem?]
      constructor
      · rintro rfl
        exact hc
      · intro h0
        exact (List.getElem?_inj (List.getElem?_eq_some_iff.mp hc).1 (h.nodup p)).mp
          (hc.trans h0.symm)
    subst hb
    rw [h.kind_tree]
    constructor
    · intro hb
      simp only [Bool.and_eq_true, beq_iff_eq] at hb
      exact ⟨p, hmem, hi.mp hb.2, hb.1⟩
    · rintro ⟨q, -, hq, hwrites⟩
      have hparent := (h.parent c q).mpr (mem_of_head? (h.first q ▸ hq))
      rw [(h.parent c p).mpr (mem_of_getElem? hc), Option.some.injEq] at hparent
      subst hparent
      simp [hwrites, hi.mpr hq]

/-- A scan of a tree that verifies records every node that carries a symbol, once and under its
symbol, and nothing else. The writes are the nodes that declare and the names and members that
something in the tree writes to. -/
theorem usages_partition (hs : s.Consistent) (hv : s.verify n = .ok ()) :
    ∃ us, s.usages [n] = .ok us ∧ us.Ordered ∧ (us.entries.map Occurrence.mark).Nodup ∧
      ∀ x a y, ⟨x, a, y⟩ ∈ us.entries ↔ y ∈ (s.tree n).preorder ∧ (s.kind y).mentioned? = some x ∧
          (a = .write ↔ (s.kind y).isWrite = true ∨
            (s.kind y).isNameOrMember = true ∧ s.WrittenIn n y) := by
  obtain ⟨kids, h⟩ := hs
  have hshape := h.verify_eq_ok.mp hv
  have hone : ∀ t ∈ [n].map s.tree, t.WellShaped := by simpa using hshape
  have huses : Tree.usesAll ([n].map s.tree) = (s.tree n).uses false := by
    rw [map_singleton, Tree.usesAll, Tree.usesAll, append_nil]
  have hentries := Usages.entries_ofOccurrences (Tree.usesAll ([n].map s.tree))
  refine ⟨_, Usages.ofTrees_eq hone, (Usages.lists_ofOccurrences _).ordered, ?_, fun x a y => ?_⟩
  · rw [(hentries.map _).nodup_iff]
    exact Tree.nodup_marks_usesAll hone (by simpa using h.nodup_preorder n)
  rw [hentries.mem_iff, huses, (Tree.uses_perm hshape false).mem_iff, mem_filterMap]
  constructor
  · rintro ⟨⟨b, u⟩, hp, huse⟩
    obtain ⟨y, hy, rfl⟩ := (h.mem_subtrees n u).mp
      (Tree.map_snd_placed (s.tree n) false ▸ mem_map_of_mem hp)
    obtain ⟨x, hx, hrecord⟩ := Option.map_eq_some_iff.mp huse
    rw [h.kind_tree] at hx hrecord
    rw [h.mark_tree] at hrecord
    cases hrecord
    rw [← h.writtenIn_of_placed hp, Kind.access_eq_write]
    exact ⟨hy, hx, Iff.rfl⟩
  · rintro ⟨hy, hx, ha⟩
    have hsub := (h.mem_subtrees n _).mpr ⟨y, hy, rfl⟩
    rw [← Tree.map_snd_placed (s.tree n) false] at hsub
    obtain ⟨⟨b, u⟩, hp, rfl⟩ := mem_map.mp hsub
    rw [← h.writtenIn_of_placed hp, ← Kind.access_eq_write] at ha
    obtain rfl : a = (s.kind y).access b := by
      cases a <;> cases hb : (s.kind y).access b <;> simp [hb] at ha ⊢
    refine ⟨_, hp, ?_⟩
    rw [Tree.use?, h.kind_tree, h.mark_tree, hx, Option.map_some]

def fieldUpdate : Store :=
  (Store.empty.grow (.node () (.assign .assign)
    [.node () (.member ⟨1⟩) [.node () (.identifier ⟨0⟩) []],
      .node () (.unary .incrementAfter) [.node () (.identifier ⟨2⟩) []]])).2

theorem usages_partition_fieldUpdate : fieldUpdate.Consistent ∧ fieldUpdate.verify ⟨0⟩ = .ok () ∧
      ∃ us, fieldUpdate.usages [⟨0⟩] = .ok us ∧
        ⟨⟨1⟩, .write, ⟨1⟩⟩ ∈ us.entries ∧ ⟨⟨0⟩, .read, ⟨2⟩⟩ ∈ us.entries := by
  have hs : fieldUpdate.Consistent := Consistent.grow ⟨_, Links.empty⟩ _
  have hv : fieldUpdate.verify ⟨0⟩ = .ok () := rfl
  obtain ⟨us, husages, -, -, hmem⟩ := usages_partition hs hv
  have hfirst : fieldUpdate.WrittenIn ⟨0⟩ ⟨1⟩ := ⟨⟨0⟩, by decide, rfl, rfl⟩
  have hobject : ¬fieldUpdate.WrittenIn ⟨0⟩ ⟨2⟩ := by
    rintro ⟨p, hp, hrest⟩
    revert p
    decide
  refine ⟨hs, hv, us, husages, (hmem _ _ _).mpr ⟨by decide, rfl, ?_⟩,
    (hmem _ _ _).mpr ⟨by decide, rfl, ?_⟩⟩
  · exact ⟨fun _ => .inr ⟨rfl, hfirst⟩, fun _ => rfl⟩
  · constructor
    · intro h
      cases h
    · rintro (h | ⟨-, h⟩)
      · cases h
      · exact absurd h hobject

end Store

end ScriptPress
