import ScriptPress.Proofs.Store.Reading

/-! # Planting trees -/

namespace ScriptPress.Store

open List Function

open Tree (marksAll)

variable {s s' : Store} {kids kids' : NodeId → List NodeId} {n x : NodeId}
variable {t : Tree (Option NodeId)} {ts : List (Tree (Option NodeId))}

/-- The node hangs where it did. -/
structure SamePlace (s s' : Store) (n : NodeId) : Prop where
  parent : s'.parent? n = s.parent? n
  previous : s'.previous? n = s.previous? n
  next : s'.next? n = s.next? n

theorem SamePlace.trans {s₁ s₂ s₃ : Store} (h : SamePlace s₁ s₂ n) (h' : SamePlace s₂ s₃ n) :
    SamePlace s₁ s₃ n :=
  ⟨h'.parent.trans h.parent, h'.previous.trans h.previous, h'.next.trans h.next⟩

theorem samePlace_of_slot (h : s'.slot? n = s.slot? n) : SamePlace s s' n := by
  refine ⟨?_, ?_, ?_⟩
  · rw [parent?, h, parent?]
  · rw [previous?, h, previous?]
  · rw [next?, h, next?]

theorem samePlace_create (s : Store) (k : Kind) (n : NodeId) : SamePlace s (s.create k).2 n :=
  ⟨link_create rfl n, link_create rfl n, link_create rfl n⟩

theorem samePlace_setKind (s : Store) (n m : NodeId) (k : Kind) : SamePlace s (s.setKind n k) m :=
  ⟨link_setKind (fun _ => rfl) n m, link_setKind (fun _ => rfl) n m,
    link_setKind (fun _ => rfl) n m⟩

theorem kind_of_slot (h : s'.slot? n = s.slot? n) : s'.kind n = s.kind n := by
  rw [kind, h, kind]

theorem samePlace_attach {p c : NodeId} {position : Option NodeId} (hc : n ≠ c)
    (hposition : some n ≠ position) (hbefore : some n ≠ s.before? p position) :
    SamePlace s (s.attach p c position) n := by
  refine ⟨?_, ?_, ?_⟩
  · rw [parent?, slot?_attach, Option.bind_map, parent?]
    simp only [hc, if_false, comp_def]
  · rw [previous?, slot?_attach, Option.bind_map, previous?]
    simp only [hc, hposition, if_false, comp_def]
  · rw [next?, slot?_attach, Option.bind_map, next?]
    simp only [hc, hbefore, if_false, comp_def]

theorem Links.tree_congr (h : s.Links kids) (h' : s'.Links kids') {P : NodeId → Prop}
    (hP : ∀ n, P n → s'.kind n = s.kind n ∧ kids' n = kids n ∧ ∀ c ∈ kids n, P c) (hn : P n) :
    s'.tree n = s.tree n := by
  induction n using h.induction with
  | step n ih =>
    obtain ⟨hkind, hkids, hclosed⟩ := hP n hn
    rw [h.tree_eq, h'.tree_eq, h.children_eq, h'.children_eq, hkind, hkids]
    congr 1
    exact map_congr_left fun c hc => ih c hc (hclosed c hc)

def Planted (s s' : Store) (marks : List NodeId) (x : NodeId) : Prop :=
  x ∈ marks ∨ (¬s.Has x ∧ s'.Has x)

def Ready (s : Store) (kids : NodeId → List NodeId) (marks : List NodeId) : Prop :=
  marks.Nodup ∧ ∀ m ∈ marks, s.Has m ∧ kids m = []

structure Grown (s : Store) (marks : List NodeId) (s' : Store) (kids' : NodeId → List NodeId) :
    Prop where
  links : s'.Links kids'
  size : s.size ≤ s'.size
  symbols : s'.symbols = s.symbols
  closed : ∀ x, Planted s s' marks x → ∀ c ∈ kids' x, Planted s s' marks c

structure Plants (s : Store) (kids : NodeId → List NodeId) (t : Tree (Option NodeId))
    (n : NodeId) (s' : Store) (kids' : NodeId → List NodeId) : Prop
    extends Grown s t.marks s' kids' where
  root : n = t.mark.getD ⟨s.size⟩
  has : s'.Has n
  frame : ∀ x, s.Has x → x ∉ t.marks → s'.slot? x = s.slot? x ∧ kids' x = kids x
  place : SamePlace s s' n
  fills : (s'.tree n).Fills t

structure PlantsAll (s : Store) (kids : NodeId → List NodeId) (parent : NodeId)
    (ts : List (Tree (Option NodeId))) (s' : Store) (kids' : NodeId → List NodeId) : Prop
    extends Grown s (marksAll ts) s' kids' where
  frame : ∀ x, s.Has x → x ∉ marksAll ts → x ≠ parent →
    s'.kind x = s.kind x ∧ kids' x = kids x ∧ (x ∉ kids parent → s'.slot? x = s.slot? x)
  place : SamePlace s s' parent
  kind : s'.kind parent = s.kind parent
  trees : ∃ ids, kids' parent = kids parent ++ ids ∧
    Forall₂ Tree.Fills (ids.map s'.tree) ts ∧ ∀ c ∈ ids, Planted s s' (marksAll ts) c

theorem Has.mono (h : s.Has n) (hsize : s.size ≤ s'.size) : s'.Has n :=
  Nat.lt_of_lt_of_le h hsize

theorem Plants.planted (h : Plants s kids t n s' kids') : Planted s s' t.marks n := by
  obtain ⟨m, k, cs⟩ := t
  obtain rfl := h.root
  cases m with
  | some m => exact .inl (by simp)
  | none => exact .inr ⟨Nat.lt_irrefl _, h.has⟩

theorem Plants.tree (h : Plants s kids t n s' kids') : (s'.tree n).bare = t.bare :=
  h.fills.bare_eq

theorem Grown.below {marks : List NodeId} (h : Grown s marks s' kids') {a : NodeId}
    (ha : Planted s s' marks a) (hx : s'.Above a x) : Planted s s' marks x := by
  induction hx using Relation.TransGen.head_induction_on with
  | single hp => exact h.closed a ha _ ((h.links.parent _ _).mp hp)
  | head hp _ ih => exact h.closed _ ih _ ((h.links.parent _ _).mp hp)

theorem not_planted {marks : List NodeId} (hx : s.Has x) (hm : x ∉ marks) :
    ¬Planted s s' marks x := by
  rintro (h | ⟨h, -⟩)
  · exact hm h
  · exact h hx

section

variable {parent : NodeId} {t : Tree (Option NodeId)} (h : Plants s kids t n s' kids')
  (hparent : s.Has parent) (hout : parent ∉ t.marks)

include h hparent hout

theorem Plants.attach (hroot : s.parent? n = none) : (s'.attach parent n none).Links
    (update kids' parent (kids parent ++ [n])) := by
  have hnot : ¬Planted s s' t.marks parent := not_planted hparent hout
  have hne : n ≠ parent := fun heq => hnot (heq ▸ h.planted)
  have habove : ¬s'.Above n parent := fun ha => hnot (h.below h.planted ha)
  have hlist : kids' parent = kids parent ++ [] := by
    rw [(h.frame parent hparent hout).2, append_nil]
  have hattach := h.links.attach (hparent.mono h.size) h.has (h.place.parent.trans hroot) hlist
    hne habove
  rw [head?_nil] at hattach
  exact hattach

theorem Plants.slot?_attach (hx : s.Has x) (hm : x ∉ t.marks) (hxp : x ≠ parent)
    (hkid : x ∉ kids parent) : (s'.attach parent n none).slot? x = s.slot? x := by
  have hnot : ¬Planted s s' t.marks x := not_planted hx hm
  have hxn : x ≠ n := fun heq => hnot (heq ▸ h.planted)
  have hlast : some x ≠ s'.before? parent none := by
    rw [before?, h.links.last, (h.frame parent hparent hout).2]
    exact fun heq => hkid (mem_of_getLast? heq.symm)
  rw [Store.slot?_attach, (h.frame x hx hm).1]
  simp only [hxn, hxp, hlast, false_and, if_false, reduceCtorEq, Option.map_id']

end

theorem PlantsAll.nil (h : s.Links kids) (parent : NodeId) : PlantsAll s kids parent [] s kids where
  links := h
  size := Nat.le_refl _
  symbols := rfl
  closed x hx := by
    rcases hx with hx | ⟨hx, hx'⟩
    · simp at hx
    · exact absurd hx' hx
  frame _ _ _ _ := ⟨rfl, rfl, fun _ => rfl⟩
  place := samePlace_of_slot rfl
  kind := rfl
  trees := ⟨[], by simp⟩

theorem PlantsAll.cons {parent : NodeId} {s₃ : Store} {kids₃ : NodeId → List NodeId}
    (hs : s.Links kids) (hparent : s.Has parent) (hout : parent ∉ t.marks)
    (hready : Ready s kids (t.marks ++ marksAll ts)) (h : Plants s kids t n s' kids')
    (hrest : PlantsAll (s'.attach parent n none)
      (update kids' parent (kids parent ++ [n])) parent ts s₃ kids₃) :
    PlantsAll s kids parent (t :: ts) s₃ kids₃ := by
  obtain ⟨-, -, hdisjoint⟩ := nodup_append.mp hready.1
  have hsize₂ : (s'.attach parent n none).size = s'.size := size_attach
  have hsize : s'.size ≤ s₃.size := hsize₂ ▸ hrest.size
  have hnot : ∀ x, s.Has x → x ∉ t.marks → ¬Planted s s' t.marks x := fun _ => not_planted
  have hne : ∀ x, Planted s s' t.marks x → x ≠ parent := fun x hx heq =>
    hnot parent hparent hout (heq ▸ hx)
  -- The first tree stays as it was planted.
  have hkept : ∀ x, Planted s s' t.marks x →
      s₃.kind x = s'.kind x ∧ kids₃ x = kids' x ∧ ∀ c ∈ kids' x, Planted s s' t.marks c := by
    intro x hx
    have hhas : s'.Has x := by
      rcases hx with hx | ⟨-, hx⟩
      · exact (hready.2 x (mem_append_left _ hx)).1.mono h.size
      · exact hx
    have hlater : x ∉ marksAll ts := by
      intro hm
      rcases hx with hx | ⟨hx, -⟩
      · exact hdisjoint x hx x hm rfl
      · exact hx (hready.2 x (mem_append_right _ hm)).1
    obtain ⟨hkind, hkids, -⟩ := hrest.frame x (by rw [Has, hsize₂]; exact hhas) hlater (hne x hx)
    rw [kind_attach] at hkind
    rw [update_of_ne (hne x hx)] at hkids
    exact ⟨hkind, hkids, h.closed x hx⟩
  have hfirst : ∀ x, Planted s s' t.marks x → Planted s s₃ (marksAll (t :: ts)) x := by
    rintro x (hx | ⟨hx, hx'⟩)
    · exact .inl (by simp [hx])
    · exact .inr ⟨hx, hx'.mono hsize⟩
  have hlater : ∀ x, Planted (s'.attach parent n none) s₃ (marksAll ts) x →
      Planted s s₃ (marksAll (t :: ts)) x := by
    rintro x (hx | ⟨hx, hx'⟩)
    · exact .inl (by simp [hx])
    · exact .inr ⟨fun hhas => hx (by rw [Has, hsize₂]; exact hhas.mono h.size), hx'⟩
  refine ⟨⟨hrest.links, Nat.le_trans h.size hsize, ?_, fun x hx c hc => ?_⟩, ?_, ?_, ?_, ?_⟩
  · rw [hrest.symbols, symbols_attach, h.symbols]
  · have hcases : Planted s s' t.marks x ∨
        Planted (s'.attach parent n none) s₃ (marksAll ts) x := by
      rcases hx with hx | ⟨hx, hx'⟩
      · rcases mem_append.mp (by simpa using hx) with hx | hx
        · exact .inl (.inl hx)
        · exact .inr (.inl hx)
      · by_cases hhas : s'.Has x
        · exact .inl (.inr ⟨hx, hhas⟩)
        · exact .inr (.inr ⟨by rw [Has, hsize₂]; exact hhas, hx'⟩)
    rcases hcases with hx | hx
    · obtain ⟨-, hkids, hclosed⟩ := hkept x hx
      exact hfirst c (hclosed c (hkids ▸ hc))
    · exact hlater c (hrest.closed x hx c hc)
  · intro x hx hm hxp
    rw [Tree.marksAll_cons, mem_append, not_or] at hm
    obtain ⟨hslot, hkids⟩ := h.frame x hx hm.1
    obtain ⟨hkind₃, hkids₃, hslot₃⟩ := hrest.frame x
      (by rw [Has, hsize₂]; exact hx.mono h.size) hm.2 hxp
    rw [kind_attach, kind_of_slot hslot] at hkind₃
    rw [update_of_ne hxp, hkids] at hkids₃
    refine ⟨hkind₃, hkids₃, fun hkid => ?_⟩
    rw [hslot₃, h.slot?_attach hparent hout hx hm.1 hxp hkid]
    rw [update_self, mem_append, mem_singleton, not_or]
    exact ⟨hkid, fun heq => hnot x hx hm.1 (heq ▸ h.planted)⟩
  · have hslot := (h.frame parent hparent hout).1
    have hlast : some parent ≠ s'.before? parent none := by
      rw [before?, h.links.last, (h.frame parent hparent hout).2]
      exact fun heq => hs.not_mem_self parent (mem_of_getLast? heq.symm)
    have hattach := samePlace_attach (hne n h.planted).symm (Option.some_ne_none _) hlast
    exact ((samePlace_of_slot hslot).trans hattach).trans hrest.place
  · rw [hrest.kind, kind_attach, kind_of_slot (h.frame parent hparent hout).1]
  · obtain ⟨ids, hids, htrees, hplanted⟩ := hrest.trees
    refine ⟨n :: ids, ?_, ?_, ?_⟩
    · rw [hids, update_self, append_assoc, singleton_append]
    · have htree := h.links.tree_congr hrest.links hkept h.planted
      rw [map_cons, htree]
      exact .cons h.fills htrees
    · rw [forall_mem_cons]
      exact ⟨hfirst n h.planted, fun c hc => hlater c (hplanted c hc)⟩

theorem Plants.node {s₁ : Store} {mark : Option NodeId} {k : Kind}
    {cs : List (Tree (Option NodeId))} (hroot : n = mark.getD ⟨s.size⟩) (hkids : kids n = [])
    (hkind : s₁.kind n = k) (hhas : s₁.Has n) (hplace : SamePlace s s₁ n) (hsize : s.size ≤ s₁.size)
    (hsymbols : s₁.symbols = s.symbols) (hother : ∀ x, x ≠ n → s₁.slot? x = s.slot? x)
    (h : PlantsAll s₁ kids n cs s' kids') : Plants s kids (.node mark k cs) n s' kids' := by
  obtain ⟨ids, hids, htrees, hplanted⟩ := h.trees
  rw [hkids, nil_append] at hids
  have hnew : ∀ x, ¬s.Has x → s₁.Has x → x = n := by
    intro x hx hx'
    by_contra hne
    obtain ⟨slot, hslot⟩ := exists_slot hx'
    rw [hother x hne, slot?_of_not_has hx] at hslot
    cases hslot
  have hlater : ∀ x, Planted s₁ s' (marksAll cs) x →
      Planted s s' (mark.toList ++ marksAll cs) x := by
    rintro x (hx | ⟨hx, hx'⟩)
    · exact .inl (mem_append_right _ hx)
    · exact .inr ⟨fun hs => hx (hs.mono hsize), hx'⟩
  refine ⟨⟨h.links, Nat.le_trans hsize h.size, h.symbols.trans hsymbols, fun x hx c hc => ?_⟩,
    hroot, hhas.mono h.size, fun x hx hm => ?_, hplace.trans h.place, ?_⟩
  · rw [Tree.marks_node] at hx ⊢
    by_cases hxn : x = n
    · rw [hxn, hids] at hc
      exact hlater c (hplanted c hc)
    · refine hlater c (h.closed x ?_ c hc)
      rcases hx with hx | ⟨hx, hx'⟩
      · rcases mem_append.mp hx with hx | hx
        · rw [Option.mem_toList] at hx
          rw [hroot, hx] at hxn
          exact absurd rfl hxn
        · exact .inl hx
      · exact .inr ⟨fun hx₁ => hxn (hnew x hx hx₁), hx'⟩
  · rw [Tree.marks_node, mem_append, not_or] at hm
    have hxn : x ≠ n := by
      rintro rfl
      cases mark with
      | none =>
        obtain rfl := hroot
        exact Nat.lt_irrefl _ hx
      | some m =>
        obtain rfl := hroot
        exact hm.1 (by simp)
    obtain ⟨-, hkids', hslot⟩ := h.frame x (hx.mono hsize) hm.2 hxn
    refine ⟨?_, hkids'⟩
    rw [hslot (by simp [hkids]), hother x hxn]
  · rw [h.links.tree_eq, h.links.children_eq, hids, h.kind, hkind]
    refine .node (fun x hx => ?_) htrees
    rw [hroot, hx, Option.getD_some]

theorem plantAll_spec
    (hplant : ∀ t ∈ ts, ∀ s kids, Links s kids → Ready s kids t.marks →
      (∀ m ∈ marksAll t.children, s.parent? m = none) →
      ∃ kids', Plants s kids t (plant t s).1 (plant t s).2 kids') :
    ∀ (s : Store) (kids : NodeId → List NodeId) (parent : NodeId), s.Links kids →
      s.Has parent → parent ∉ marksAll ts → Ready s kids (marksAll ts) →
      (∀ m ∈ marksAll ts, s.parent? m = none) →
      ∃ kids', PlantsAll s kids parent ts (plantAll parent ts s) kids' := by
  induction ts with
  | nil =>
    intro s kids parent hs _ _ _ _
    rw [plantAll]
    exact ⟨kids, .nil hs parent⟩
  | cons t ts ih =>
    intro s kids parent hs hparent hout hready hroots
    rw [Tree.marksAll_cons, mem_append, not_or] at hout
    rw [Tree.marksAll_cons] at hready hroots
    obtain ⟨hnodup, hmarks⟩ := hready
    obtain ⟨hfirst, hrest, hdisjoint⟩ := nodup_append.mp hnodup
    have hbelow : ∀ m ∈ marksAll t.children, s.parent? m = none := fun m hm =>
      hroots m (by rw [Tree.marks_eq]; simp [hm])
    obtain ⟨kids₁, h₁⟩ := hplant t (.head _) s kids hs
      ⟨hfirst, fun m hm => hmarks m (mem_append_left _ hm)⟩ hbelow
    have hroot : s.parent? (plant t s).1 = none := by
      rcases h₁.planted with hm | ⟨hnew, -⟩
      · exact hroots _ (mem_append_left _ hm)
      · rw [parent?, slot?_of_not_has hnew]
        rfl
    have hlinks := h₁.attach hparent hout.1 hroot
    have hsize : ((plant t s).2.attach parent (plant t s).1 none).size = (plant t s).2.size :=
      size_attach
    -- The marks of the other trees are still free.
    have hlater : ∀ m ∈ marksAll ts, m ∉ t.marks := fun m hm hm' => hdisjoint m hm' m hm rfl
    have hready₂ : Ready ((plant t s).2.attach parent (plant t s).1 none)
        (update kids₁ parent (kids parent ++ [(plant t s).1])) (marksAll ts) := by
      refine ⟨hrest, fun m hm => ?_⟩
      obtain ⟨hhas, hkids⟩ := hmarks m (mem_append_right _ hm)
      refine ⟨by rw [Has, hsize]; exact hhas.mono h₁.size, ?_⟩
      have hne : m ≠ parent := fun heq => hout.2 (heq ▸ hm)
      rw [update_of_ne hne, (h₁.frame m hhas (hlater m hm)).2, hkids]
    have hroots₂ : ∀ m ∈ marksAll ts,
        ((plant t s).2.attach parent (plant t s).1 none).parent? m = none := by
      intro m hm
      obtain ⟨hhas, -⟩ := hmarks m (mem_append_right _ hm)
      have hne : m ≠ (plant t s).1 := fun heq =>
        not_planted hhas (hlater m hm) (heq ▸ h₁.planted)
      rw [parent?_attach h₁.has, if_neg hne,
        (samePlace_of_slot (h₁.frame m hhas (hlater m hm)).1).parent]
      exact hroots m (mem_append_right _ hm)
    obtain ⟨kids₃, h₃⟩ := ih (fun t ht => hplant t (.tail _ ht)) _ _ parent
      hlinks (by rw [Has, hsize]; exact hparent.mono h₁.size) hout.2 hready₂ hroots₂
    rw [plantAll]
    exact ⟨kids₃, .cons hs hparent hout.1 ⟨hnodup, hmarks⟩ h₁ h₃⟩

theorem plant_spec (t : Tree (Option NodeId)) : ∀ (s : Store) (kids : NodeId → List NodeId),
    s.Links kids → Ready s kids t.marks → (∀ m ∈ marksAll t.children, s.parent? m = none) →
    ∃ kids', Plants s kids t (plant t s).1 (plant t s).2 kids' := by
  induction t with
  | node mark k cs ih =>
    intro s kids hs hready hroots
    obtain ⟨hnodup, hmarks⟩ := hready
    rw [Tree.marks_node] at hnodup hmarks
    rw [Tree.children_node] at hroots
    obtain ⟨-, hrest, hdisjoint⟩ := nodup_append.mp hnodup
    have hmarks' : ∀ m ∈ marksAll cs, s.Has m ∧ kids m = [] := fun m hm =>
      hmarks m (mem_append_right _ hm)
    cases mark with
    | some n =>
      obtain ⟨hhas, hkids⟩ := hmarks n (by simp)
      have hsize : (s.setKind n k).size = s.size := size_modify _ _ _
      have hhas' : (s.setKind n k).Has n := by
        rw [Has, hsize]
        exact hhas
      obtain ⟨kids', h⟩ := plantAll_spec ih (s.setKind n k) kids n (hs.setKind n k) hhas'
        (fun hm => hdisjoint n (by simp) n hm rfl)
        ⟨hrest, fun m hm => by rw [Has, hsize]; exact hmarks' m hm⟩
        (fun m hm => (samePlace_setKind s n m k).parent.trans (hroots m hm))
      rw [plant]
      exact ⟨kids', .node rfl hkids (kind_setKind hhas k) hhas' (samePlace_setKind s n n k)
        (Nat.le_of_eq hsize.symm) rfl (fun _ => slot?_setKind) h⟩
    | none =>
      have hsize : (s.create k).2.size = s.size + 1 := size_create s k
      have hnew : ¬s.Has (s.create k).1 := Nat.lt_irrefl _
      have hkids : kids (s.create k).1 = [] := by
        rw [eq_nil_iff_forall_not_mem]
        exact fun c hc => hnew (hs.owner _ c hc)
      have hhas' : (s.create k).2.Has (s.create k).1 := by
        rw [Has, hsize]
        exact Nat.lt_succ_self _
      have hslot : ∀ x, x ≠ (s.create k).1 → (s.create k).2.slot? x = s.slot? x := by
        intro x hx
        rw [slot?_create, if_neg]
        exact fun heq => hx (by cases x; exact congrArg NodeId.mk heq)
      obtain ⟨kids', h⟩ := plantAll_spec ih (s.create k).2 kids (s.create k).1 (hs.create k)
        hhas' (fun hm => hnew (hmarks' _ hm).1)
        ⟨hrest, fun m hm => ⟨(hmarks' m hm).1.mono (by omega), (hmarks' m hm).2⟩⟩
        (fun m hm => (samePlace_create s k m).parent.trans (hroots m hm))
      rw [plant]
      exact ⟨kids', .node rfl hkids (kind_create s k) hhas' (samePlace_create s k _)
        (by omega) rfl hslot h⟩

end ScriptPress.Store
