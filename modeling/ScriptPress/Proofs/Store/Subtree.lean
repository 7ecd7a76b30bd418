import ScriptPress.Proofs.Store.Edit

/-! # Taking a tree apart and growing it again -/

namespace ScriptPress.Store

open Tree List Function

open Tree (marksAll)

variable {s s' : Store} {kids kids' : NodeId → List NodeId} {n p x : NodeId}

namespace Links

section

variable (h : s.Links kids)
include h

theorem mark_tree (n : NodeId) : (s.tree n).mark = n := by
  rw [h.tree_eq, mark_node]

theorem kind_tree (n : NodeId) : (s.tree n).kind = s.kind n := by
  rw [h.tree_eq, kind_node]

theorem children_tree (n : NodeId) : (s.tree n).children = (kids n).map s.tree := by
  rw [h.tree_eq, children_node, h.children_eq]

theorem above_iff : s.Above n x ↔ ∃ c ∈ kids n, x = c ∨ s.Above c x := by
  rw [Above, Relation.TransGen.tail'_iff]
  constructor
  · rintro ⟨c, hxc, hc⟩
    refine ⟨c, (h.parent c n).mp hc, ?_⟩
    rcases Relation.reflTransGen_iff_eq_or_transGen.mp hxc with rfl | hxc
    · exact .inl rfl
    · exact .inr hxc
  · rintro ⟨c, hc, rfl | hxc⟩
    · exact ⟨x, .refl, (h.parent x n).mpr hc⟩
    · exact ⟨c, hxc.to_reflTransGen, (h.parent c n).mpr hc⟩

theorem mem_preorder (n x : NodeId) : x ∈ (s.tree n).preorder ↔ x = n ∨ s.Above n x := by
  induction n using h.induction with
  | step n ih =>
    rw [h.tree_eq, preorder_node, mem_cons, flatMap_map, mem_flatMap,
      h.above_iff, h.children_eq]
    refine or_congr_right (exists_congr fun c => and_congr_right fun hc => ?_)
    exact ih c hc

theorem mem_preorder_child {c y : NodeId} (hc : c ∈ kids n) (hy : y ∈ (s.tree c).preorder) :
    y ∈ (s.tree n).preorder :=
  (h.mem_preorder n y).mpr (.inr (h.above_iff.mpr ⟨c, hc, (h.mem_preorder c y).mp hy⟩))

theorem mem_preorder_self (n : NodeId) : n ∈ (s.tree n).preorder :=
  (h.mem_preorder n n).mpr (.inl rfl)

theorem has_above (hx : s.Above n x) : s.Has x := by
  obtain ⟨c, hc, -⟩ := Relation.TransGen.head'_iff.mp hx
  exact h.has ((h.parent x c).mp hc)

theorem branch_unique {c d : NodeId} (hc : c ∈ kids p) (hd : d ∈ kids p) (hxc : x = c ∨ s.Above c x)
    (hxd : x = d ∨ s.Above d x) : c = d := by
  -- Going up from the node passes through both children; one of them comes first.
  have key : ∀ c d, c ∈ kids p → d ∈ kids p →
      Relation.ReflTransGen (fun c p => s.parent? c = some p) c d → c = d := by
    intro c d hc hd hcd
    rcases hcd.cases_head with heq | ⟨q, hq, hqd⟩
    · exact heq
    · rw [(h.parent c p).mpr hc, Option.some.injEq] at hq
      subst hq
      exact absurd (.head' ((h.parent d p).mpr hd) hqd) (h.not_above_self d)
  have hfun : Relator.RightUnique fun c p => s.parent? c = some p := by
    intro a b b' hb hb'
    rw [hb, Option.some.injEq] at hb'
    exact hb'
  have hup : ∀ c, x = c ∨ s.Above c x →
      Relation.ReflTransGen (fun c p => s.parent? c = some p) x c := by
    rintro c (rfl | hc)
    · exact .refl
    · exact hc.to_reflTransGen
  rcases Relation.ReflTransGen.total_of_right_unique hfun (hup c hxc) (hup d hxd) with hcd | hdc
  · exact key c d hc hd hcd
  · exact (key d c hd hc hdc).symm

theorem nodup_preorder (n : NodeId) : (s.tree n).preorder.Nodup := by
  induction n using h.induction with
  | step n ih =>
    have hself : n ∉ (s.children n).flatMap fun c => (s.tree c).preorder := by
      rw [mem_flatMap]
      rintro ⟨c, hc, hn⟩
      rw [h.children_eq] at hc
      exact h.not_above_self n (h.above_iff.mpr ⟨c, hc, (h.mem_preorder c n).mp hn⟩)
    rw [h.tree_eq, preorder_node, flatMap_map, nodup_cons, nodup_flatMap]
    refine ⟨hself, fun c hc => ih c (h.children_eq ▸ hc), ?_⟩
    rw [h.children_eq]
    refine (h.nodup n).imp_of_mem fun {c d} hc hd hne => ?_
    intro x hxc hxd
    exact hne (h.branch_unique hc hd ((h.mem_preorder c x).mp hxc)
      ((h.mem_preorder d x).mp hxd))

end

end Links

structure Cleared (s : Store) (kids : NodeId → List NodeId) (ms : List NodeId) (s' : Store)
    (kids' : NodeId → List NodeId) : Prop where
  links : s'.Links kids'
  lists : ∀ x, kids' x = if x ∈ ms then [] else kids x
  size : s'.size = s.size
  symbols : s'.symbols = s.symbols
  place : ∀ x, (∀ m ∈ ms, x ∉ kids m) → SamePlace s s' x
  frame : ∀ x, x ∉ ms → (∀ m ∈ ms, x ∉ kids m) → s'.slot? x = s.slot? x

theorem Cleared.nil (h : s.Links kids) : Cleared s kids [] s kids :=
  ⟨h, fun x => by simp, rfl, rfl, fun _ _ => samePlace_of_slot rfl, fun _ _ _ => rfl⟩

theorem Cleared.append {s'' : Store} {kids'' : NodeId → List NodeId} {ms ms' : List NodeId}
    (h : Cleared s kids ms s' kids') (h' : Cleared s' kids' ms' s'' kids'') :
    Cleared s kids (ms ++ ms') s'' kids'' := by
  have hsub : ∀ x, (∀ m ∈ ms ++ ms', x ∉ kids m) →
      (∀ m ∈ ms, x ∉ kids m) ∧ ∀ m ∈ ms', x ∉ kids' m := by
    intro x hx
    rw [forall_mem_append] at hx
    refine ⟨hx.1, fun m hm => ?_⟩
    rw [h.lists]
    split
    · exact not_mem_nil
    · exact hx.2 m hm
  refine ⟨h'.links, fun x => ?_, h'.size.trans h.size, h'.symbols.trans h.symbols,
    fun x hx => ?_, fun x hm hx => ?_⟩
  · rw [h'.lists, h.lists]
    by_cases hx : x ∈ ms <;> by_cases hx' : x ∈ ms' <;> simp [hx, hx']
  · obtain ⟨hfirst, hrest⟩ := hsub x hx
    exact (h.place x hfirst).trans (h'.place x hrest)
  · obtain ⟨hfirst, hrest⟩ := hsub x hx
    rw [mem_append, not_or] at hm
    rw [h'.frame x hm.2 hrest, h.frame x hm.1 hfirst]

namespace Links

variable {c : NodeId} {cs : List NodeId}

theorem slot?_detach_first (h : s.Links kids) (hkids : kids n = c :: cs) (hn : x ≠ n)
    (hx : x ∉ kids n) : (s.detach c).slot? x = s.slot? x := by
  rw [hkids, mem_cons, not_or] at hx
  have hparent : some x ≠ s.parent? c := by
    rw [(h.parent c n).mpr (by simp [hkids]), Ne, Option.some.injEq]
    exact hn
  have hnext : some x ≠ s.next? c := by
    rw [h.next_eq (l := []) hkids]
    exact fun heq => hx.2 (mem_of_head? heq.symm)
  have hprevious : some x ≠ s.previous? c := by
    rw [h.previous_eq (l := []) hkids]
    exact Option.some_ne_none x
  rw [slot?_detach]
  simp only [hx.1, hparent, hnext, hprevious, false_and, and_false, if_false, Option.map_id']

theorem samePlace_detach_first (h : s.Links kids) (hkids : kids n = c :: cs) :
    SamePlace s (s.detach c) n := by
  have hself := h.not_mem_self n
  rw [hkids, mem_cons, not_or] at hself
  have hnext : some n ≠ s.next? c := by
    rw [h.next_eq (l := []) hkids]
    exact fun heq => hself.2 (mem_of_head? heq.symm)
  have hprevious : some n ≠ s.previous? c := by
    rw [h.previous_eq (l := []) hkids]
    exact Option.some_ne_none n
  refine ⟨?_, ?_, ?_⟩
  · rw [parent?_detach, if_neg hself.1]
  · rw [previous?, slot?_detach, Option.bind_map]
    simp only [hself.1, hnext, and_false, if_false, comp_def]
    rfl
  · rw [next?, slot?_detach, Option.bind_map]
    simp only [hself.1, hprevious, and_false, if_false, comp_def]
    rfl

theorem cleared_foldl (h : s.Links kids) (n : NodeId) :
    Cleared s kids [n] ((kids n).foldl Store.detach s) (update kids n []) := by
  generalize hkids : kids n = cs
  induction cs generalizing s kids with
  | nil =>
    rw [foldl_nil, ← hkids, update_eq_self]
    refine ⟨h, fun x => ?_, rfl, rfl, fun _ _ => samePlace_of_slot rfl, fun _ _ _ => rfl⟩
    by_cases hx : x = n <;> simp [hx, hkids]
  | cons c cs ih =>
    have hdetach := h.detach (l := []) hkids
    have hrest := ih hdetach (by simp)
    rw [update_idem] at hrest
    have hsub : ∀ x, x ∉ c :: cs → x ∉ update kids n ([] ++ cs) n := by
      intro x hx
      rw [update_self, nil_append]
      exact fun hcs => hx (.tail _ hcs)
    rw [foldl_cons]
    refine ⟨hrest.links, fun x => ?_, hrest.size.trans (size_detach c),
      hrest.symbols.trans (symbols_detach c), fun x hx => ?_, fun x hm hx => ?_⟩
    · by_cases hx : x = n <;> simp [hx]
    · rw [forall_mem_singleton] at hx
      have hfirst : SamePlace s (s.detach c) x := by
        by_cases hxn : x = n
        · exact hxn ▸ h.samePlace_detach_first hkids
        · exact samePlace_of_slot (h.slot?_detach_first hkids hxn hx)
      exact hfirst.trans (hrest.place x (by simpa using hsub x (hkids ▸ hx)))
    · rw [forall_mem_singleton] at hx
      rw [hrest.frame x hm (by simpa using hsub x (hkids ▸ hx)),
        h.slot?_detach_first hkids (by simpa using hm) hx]

theorem cleared (h : s.Links kids) (ms : List NodeId) :
    ∃ kids', Cleared s kids ms (ms.foldl detachChildren s) kids' := by
  induction ms generalizing s kids with
  | nil => exact ⟨kids, .nil h⟩
  | cons m ms ih =>
    have hfirst := h.cleared_foldl m
    obtain ⟨kids', hrest⟩ := ih hfirst.links
    rw [foldl_cons, detachChildren, h.children_eq]
    exact ⟨kids', hfirst.append hrest⟩

end Links

structure PlantsEach (s : Store) (kids : NodeId → List NodeId)
    (ts : List (Tree (Option NodeId))) (s' : Store) (kids' : NodeId → List NodeId) : Prop where
  links : s'.Links kids'
  size : s.size ≤ s'.size
  symbols : s'.symbols = s.symbols
  frame : ∀ x, s.Has x → x ∉ marksAll ts → s'.slot? x = s.slot? x ∧ kids' x = kids x
  trees : ∀ t ∈ ts, ∀ m, t.mark = some m → SamePlace s s' m ∧ (s'.tree m).Fills t

theorem PlantsEach.cons {t : Tree (Option NodeId)} {ts : List (Tree (Option NodeId))}
    {s₁ : Store} {kids₁ : NodeId → List NodeId} (hready : Ready s kids (marksAll (t :: ts)))
    (h : Plants s kids t n s₁ kids₁) (hrest : PlantsEach s₁ kids₁ ts s' kids') :
    PlantsEach s kids (t :: ts) s' kids' := by
  rw [marksAll_cons] at hready
  obtain ⟨-, -, hdisjoint⟩ := nodup_append.mp hready.1
  -- The nodes of the first tree are not touched again.
  have hkept : ∀ x, Planted s s₁ t.marks x → s'.slot? x = s₁.slot? x ∧ kids' x = kids₁ x := by
    rintro x (hx | ⟨hx, hx₁⟩)
    · have hhas := (hready.2 x (mem_append_left _ hx)).1
      exact hrest.frame x (hhas.mono h.size) fun hm => hdisjoint x hx x hm rfl
    · exact hrest.frame x hx₁ fun hm => hx (hready.2 x (mem_append_right _ hm)).1
  refine ⟨hrest.links, Nat.le_trans h.size hrest.size, hrest.symbols.trans h.symbols,
    fun x hx hm => ?_, fun u hu m hm => ?_⟩
  · rw [marksAll_cons, mem_append, not_or] at hm
    obtain ⟨hslot, hkids⟩ := h.frame x hx hm.1
    obtain ⟨hslot', hkids'⟩ := hrest.frame x (hx.mono h.size) hm.2
    exact ⟨hslot'.trans hslot, hkids'.trans hkids⟩
  · rcases mem_cons.mp hu with rfl | hu
    · have hroot : n = m := by rw [h.root, hm, Option.getD_some]
      subst hroot
      have htree := h.links.tree_congr hrest.links
        (fun x hx => ⟨kind_of_slot (hkept x hx).1, (hkept x hx).2, h.closed x hx⟩) h.planted
      rw [htree]
      exact ⟨h.place.trans (samePlace_of_slot (hkept n h.planted).1), h.fills⟩
    · obtain ⟨hplace, htree⟩ := hrest.trees u hu m hm
      have hmark : m ∈ marksAll ts := mem_marksAll hu (mark_mem_marks hm)
      have hout : m ∉ t.marks := fun hm' => hdisjoint m hm' m hmark rfl
      have hhas := (hready.2 m (mem_append_right _ hmark)).1
      exact ⟨(samePlace_of_slot (h.frame m hhas hout).1).trans hplace, htree⟩

theorem plantEach_spec (ts : List (Tree (Option NodeId))) (h : s.Links kids)
    (hready : Ready s kids (marksAll ts))
    (hroots : ∀ t ∈ ts, ∀ m ∈ marksAll t.children, s.parent? m = none) :
    ∃ kids', PlantsEach s kids ts (ts.foldl (fun s t => (plant t s).2) s) kids' := by
  induction ts generalizing s kids with
  | nil =>
    exact ⟨kids, h, Nat.le_refl _, rfl, fun _ _ _ => ⟨rfl, rfl⟩,
      fun t ht => absurd ht not_mem_nil⟩
  | cons t ts ih =>
    have hmarks := hready
    rw [marksAll_cons] at hmarks
    obtain ⟨hfirst, hlast, hdisjoint⟩ := nodup_append.mp hmarks.1
    obtain ⟨kids₁, h₁⟩ := plant_spec t s kids h
      ⟨hfirst, fun m hm => hmarks.2 m (mem_append_left _ hm)⟩
      (hroots t (.head _))
    have hframe : ∀ m ∈ marksAll ts,
        (plant t s).2.Has m ∧ (plant t s).2.slot? m = s.slot? m ∧ kids₁ m = [] := by
      intro m hm
      obtain ⟨hhas, hkids⟩ := hmarks.2 m (mem_append_right _ hm)
      obtain ⟨hslot, hkids₁⟩ := h₁.frame m hhas fun hm' => hdisjoint m hm' m hm rfl
      exact ⟨hhas.mono h₁.size, hslot, hkids₁.trans hkids⟩
    have hbelow : ∀ u ∈ ts, ∀ m ∈ marksAll u.children, (plant t s).2.parent? m = none := by
      intro u hu m hm
      have hmem : m ∈ marksAll ts :=
        mem_marksAll hu (by rw [marks_eq]; exact mem_append_right _ hm)
      rw [(samePlace_of_slot (hframe m hmem).2.1).parent]
      exact hroots u (.tail _ hu) m hm
    obtain ⟨kids', hrest⟩ := ih h₁.links
      ⟨hlast, fun m hm => ⟨(hframe m hm).1, (hframe m hm).2.2⟩⟩ hbelow
    exact ⟨kids', .cons hready h₁ hrest⟩

end ScriptPress.Store
