import ScriptPress.Proofs.Store.Plant

/-! # Edits keep a forest -/

namespace ScriptPress.Store

variable {s s' : Store} {kids : NodeId → List NodeId} {p c n : NodeId} {position : Option NodeId}
variable {target source old new : NodeId}

theorem insert_eq_ok (h : s.insert p c position = .ok s') :
    c ≠ p ∧ s.parent? c = none ∧ s.isAncestor c p = false ∧
      (∀ b, position = some b → s.parent? b = some p) ∧ s' = s.attach p c position := by
  unfold insert at h
  by_cases hself : p = c
  · rw [if_pos hself] at h
    cases h
  · rw [if_neg hself] at h
    by_cases hroot : s.isRoot c
    · rw [if_neg (by simp [hroot])] at h
      by_cases habove : s.isAncestor c p
      · rw [if_pos habove] at h
        cases h
      · rw [if_neg habove] at h
        by_cases hposition : (position.any fun b => s.parent? b ≠ some p)
        · rw [if_pos hposition] at h
          cases h
        · rw [if_neg hposition] at h
          refine ⟨fun heq => hself heq.symm, ?_, by simpa using habove, ?_, ?_⟩
          · simp only [isRoot, Bool.and_eq_true, Option.isNone_iff_eq_none] at hroot
            exact hroot.1.1
          · rintro b rfl
            simpa using hposition
          · exact (Except.ok.inj h).symm
    · rw [if_pos (by simp [hroot])] at h
      cases h

theorem Links.split_position (h : s.Links kids)
    (hposition : ∀ b, position = some b → s.parent? b = some p) :
    ∃ l r, kids p = l ++ r ∧ position = r.head? := by
  cases position with
  | none => exact ⟨kids p, [], by simp, rfl⟩
  | some b =>
    obtain ⟨l, r, hlist⟩ := List.append_of_mem ((h.parent b p).mp (hposition b rfl))
    exact ⟨l, b :: r, hlist, rfl⟩

section

variable (h : s.Consistent)
include h

theorem Consistent.insert (hp : s.Has p) (hc : s.Has c) (hs : s.insert p c position = .ok s') :
    s'.Consistent ∧ s'.size = s.size := by
  obtain ⟨kids, hlinks⟩ := h
  obtain ⟨hne, hroot, habove, hposition, rfl⟩ := insert_eq_ok hs
  obtain ⟨l, r, hlist, rfl⟩ := hlinks.split_position hposition
  refine ⟨⟨_, hlinks.attach hp hc hroot hlist hne ?_⟩, size_attach⟩
  rw [← hlinks.mem_ancestors]
  simpa [isAncestor] using habove

theorem Consistent.insertAll {cs : List NodeId} (hp : s.Has p) (hcs : ∀ c ∈ cs, s.Has c)
    (hs : cs.foldlM (fun s c => s.insert p c position) s = .ok s') :
    s'.Consistent ∧ s'.size = s.size := by
  induction cs generalizing s with
  | nil =>
    cases hs
    exact ⟨h, rfl⟩
  | cons c cs ih =>
    rw [List.forall_mem_cons] at hcs
    rw [List.foldlM_cons] at hs
    cases hc : s.insert p c position with
    | error e =>
      rw [hc] at hs
      cases hs
    | ok s₁ =>
      rw [hc] at hs
      obtain ⟨h₁, hsize⟩ := h.insert hp hcs.1 hc
      obtain ⟨h', hsize'⟩ := ih h₁ (by rw [Has, hsize]; exact hp)
        (fun c hc => by rw [Has, hsize]; exact hcs.2 c hc) hs
      exact ⟨h', hsize'.trans hsize⟩

theorem Consistent.detach (n : NodeId) : (s.detach n).Consistent := by
  obtain ⟨kids, hlinks⟩ := h
  cases hp : s.parent? n with
  | none => exact ⟨kids, hlinks.detach_root hp⟩
  | some p =>
    obtain ⟨l, r, hlist⟩ := List.append_of_mem ((hlinks.parent n p).mp hp)
    exact ⟨_, hlinks.detach hlist⟩

theorem Consistent.detachChildren (n : NodeId) :
    (s.detachChildren n).Consistent ∧ (s.detachChildren n).size = s.size := by
  unfold Store.detachChildren
  generalize s.children n = cs
  induction cs generalizing s with
  | nil => exact ⟨h, rfl⟩
  | cons c cs ih =>
    obtain ⟨h', hsize⟩ := ih (h.detach c)
    exact ⟨h', hsize.trans (size_detach c)⟩

theorem Consistent.has_children (hc : c ∈ s.children p) : s.Has c := by
  obtain ⟨kids, hlinks⟩ := h
  rw [hlinks.children_eq] at hc
  exact hlinks.has hc

theorem Consistent.setKind (n : NodeId) (k : Kind) :
    (s.setKind n k).Consistent ∧ (s.setKind n k).size = s.size := by
  obtain ⟨kids, hlinks⟩ := h
  exact ⟨⟨kids, hlinks.setKind n k⟩, size_modify _ _ _⟩

theorem Consistent.create (k : Kind) : (s.create k).2.Consistent := by
  obtain ⟨kids, hlinks⟩ := h
  exact ⟨kids, hlinks.create k⟩

theorem Consistent.moveChildren (htarget : s.Has target)
    (hs : s.moveChildren target source = .ok s') : s'.Consistent := by
  obtain ⟨h', hsize⟩ := h.detachChildren source
  refine (h'.insertAll (by rw [Has, hsize]; exact htarget) (fun c hc => ?_) hs).1
  rw [Has, hsize]
  exact h.has_children hc

end

theorem replace_eq_ok (hs : s.replace old new = .ok s') :
    ∃ p, s.parent? old = some p ∧
      ∃ s₁, s.insert p new (some old) = .ok s₁ ∧ s' = s₁.detach old := by
  unfold Store.replace at hs
  cases hp : s.parent? old with
  | none =>
    rw [hp] at hs
    cases hs
  | some p =>
    simp only [hp] at hs
    cases hi : s.insert p new (some old) with
    | error e =>
      rw [hi] at hs
      cases hs
    | ok s₁ =>
      rw [hi] at hs
      cases hs
      exact ⟨p, rfl, s₁, hi, rfl⟩

theorem Consistent.replace (h : s.Consistent) (hnew : s.Has new) (hs : s.replace old new = .ok s') :
    s'.Consistent := by
  obtain ⟨p, hp, s₁, hi, rfl⟩ := replace_eq_ok hs
  have hhas : s.Has p := by
    obtain ⟨kids, hlinks⟩ := h
    exact hlinks.owner p old ((hlinks.parent old p).mp hp)
  exact (h.insert hhas hnew hi).1.detach old

theorem dissolve_eq_ok (hs : s.dissolve n = .ok s') : ∃ p, s.parent? n = some p ∧ ∃ s₁,
      (s.children n).foldlM (fun s c => s.insert p c (some n)) (s.detachChildren n) = .ok s₁ ∧
        s' = s₁.detach n := by
  unfold Store.dissolve at hs
  cases hp : s.parent? n with
  | none =>
    rw [hp] at hs
    cases hs
  | some p =>
    simp only [hp, takeChildren] at hs
    cases hi : (s.children n).foldlM (fun s c => s.insert p c (some n))
        (s.detachChildren n) with
    | error e =>
      rw [hi] at hs
      cases hs
    | ok s₁ =>
      rw [hi] at hs
      cases hs
      exact ⟨p, rfl, s₁, hi, rfl⟩

theorem Consistent.dissolve (h : s.Consistent) (hs : s.dissolve n = .ok s') : s'.Consistent := by
  obtain ⟨p, hp, s₁, hi, rfl⟩ := dissolve_eq_ok hs
  have hhas : s.Has p := by
    obtain ⟨kids, hlinks⟩ := h
    exact hlinks.owner p n ((hlinks.parent n p).mp hp)
  obtain ⟨h', hsize⟩ := h.detachChildren n
  refine (h'.insertAll (by rw [Has, hsize]; exact hhas) (fun c hc => ?_) hi).1.detach n
  rw [Has, hsize]
  exact h.has_children hc

theorem transplant_eq_ok (hs : s.transplant target source = .ok s') :
    target ≠ source ∧ s.parent? source = none ∧ s.isAncestor source target = false ∧
      (((s.detachChildren target).setKind source .empty).setKind target
        (s.kind source)).moveChildren target source = .ok s' := by
  unfold Store.transplant at hs
  split at hs
  · cases hs
  · rename_i hne
    split at hs
    · cases hs
    · rename_i hroot
      split at hs
      · cases hs
      · rename_i habove
        refine ⟨hne, ?_, by simpa using habove, hs⟩
        simp only [isRoot, Bool.not_eq_true', Bool.not_eq_false, Bool.and_eq_true,
          Option.isNone_iff_eq_none] at hroot
        exact hroot.1.1

theorem Consistent.transplant (h : s.Consistent) (htarget : s.Has target)
    (hs : s.transplant target source = .ok s') : s'.Consistent := by
  obtain ⟨-, -, -, hmove⟩ := transplant_eq_ok hs
  obtain ⟨h₁, hsize₁⟩ := h.detachChildren target
  obtain ⟨h₂, hsize₂⟩ := h₁.setKind source .empty
  obtain ⟨h₃, hsize₃⟩ := h₂.setKind target (s.kind source)
  refine h₃.moveChildren ?_ hmove
  rw [Has, hsize₃, hsize₂, hsize₁]
  exact htarget

theorem Consistent.setLeaf (h : s.Consistent) (n : NodeId) (k : Kind) :
    (s.setLeaf n k).Consistent :=
  ((h.detachChildren n).1.setKind n k).1

theorem Consistent.grow {α : Type} (h : s.Consistent) (t : Tree α) : (s.grow t).2.Consistent := by
  obtain ⟨kids, hlinks⟩ := h
  have hmarks : (t.map fun _ => (none : Option NodeId)).marks = [] := by
    rw [Tree.marks_map, List.filterMap_none]
  have hbelow : Tree.marksAll (t.map fun _ => (none : Option NodeId)).children = [] := by
    rw [Tree.marks_eq] at hmarks
    exact (List.append_eq_nil_iff.mp hmarks).2
  obtain ⟨kids', h'⟩ := plant_spec (t.map fun _ => none) s kids hlinks
    (by rw [hmarks]; exact ⟨List.nodup_nil, by simp⟩) (by rw [hbelow]; simp)
  exact ⟨kids', h'.links⟩

theorem Consistent.copy (h : s.Consistent) (n : NodeId) : (s.copy n).2.Consistent :=
  h.grow (s.tree n)

end ScriptPress.Store
