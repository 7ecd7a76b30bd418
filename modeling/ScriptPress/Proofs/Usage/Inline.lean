import ScriptPress.Proofs.Store.Subtree
import ScriptPress.Proofs.Usage.Substitute
import ScriptPress.Usage.Constant

/-! # Inlining constants in a store -/

namespace ScriptPress.Store

open Tree List Function

variable {s s' : Store} {kids : NodeId → List NodeId} {n value read : NodeId} {x : SymbolId}
variable {list d : NodeId}

namespace Links

theorem mem_subtrees (h : s.Links kids) (n : NodeId) (u : Tree NodeId) :
    u ∈ (s.tree n).subtrees ↔ ∃ y ∈ (s.tree n).preorder, u = s.tree y := by
  induction n using h.induction with
  | step n ih =>
    have hnode := h.tree_eq n
    rw [h.children_eq] at hnode
    rw [hnode, mem_subtrees_node, preorder_node, ← hnode]
    simp only [mem_cons, mem_flatMap, mem_map, exists_exists_and_eq_and,
      exists_eq_or_imp]
    refine or_congr_right ?_
    constructor
    · rintro ⟨c, hc, hu⟩
      obtain ⟨y, hy, rfl⟩ := (ih c hc).mp hu
      exact ⟨y, ⟨c, hc, hy⟩, rfl⟩
    · rintro ⟨y, ⟨c, hc, hy⟩, rfl⟩
      exact ⟨c, hc, (ih c hc).mpr ⟨y, hy, rfl⟩⟩

end Links

theorem has_of_kind (h : s.kind n ≠ .empty) : s.Has n := by
  by_contra hn
  rw [kind, slot?_of_not_has hn] at h
  exact h rfl

structure Recast (s : Store) (kids : NodeId → List NodeId) (kind : NodeId → Kind) (s' : Store) :
    Prop where
  links : s'.Links kids
  kind : s'.kind = kind
  size : s.size ≤ s'.size
  symbols : s'.symbols = s.symbols

theorem kind_setKind_eq (h : s.Has n) (k : Kind) :
    (s.setKind n k).kind = update s.kind n k := by
  funext m
  by_cases hm : m = n
  · subst hm
    rw [kind_setKind h, update_self]
  · rw [update_of_ne hm]
    exact kind_of_slot (slot?_setKind hm)

theorem size_setKind (s : Store) (n : NodeId) (k : Kind) : (s.setKind n k).size = s.size :=
  size_modify s n _

theorem kind_create_eq (s : Store) (k : Kind) :
    (s.create k).2.kind = update s.kind ⟨s.size⟩ k := by
  funext m
  by_cases hm : m = ⟨s.size⟩
  · subst hm
    rw [update_self]
    exact kind_create s k
  · rw [update_of_ne hm]
    refine kind_of_slot ?_
    rw [slot?_create, if_neg fun heq => hm ?_]
    obtain ⟨i⟩ := m
    exact congrArg NodeId.mk heq

namespace Links

theorem kids_fresh (h : s.Links kids) : kids ⟨s.size⟩ = [] := by
  rw [eq_nil_iff_forall_not_mem]
  exact fun c hc => Nat.lt_irrefl _ (h.owner _ c hc)

theorem copy_leaf (h : s.Links kids) (hn : kids n = []) : s.copy n = s.create (s.kind n) := by
  rw [copy, grow, h.tree_eq, h.children_eq, hn, map_nil, map_node, map_nil, plant]
  show (_, plantAll _ [] _) = _
  rw [plantAll]
  rfl

theorem transplant_create (h : s.Links kids) (hn : s.Has n) (hleaf : kids n = []) (k : Kind) :
    (s.create k).2.transplant n ⟨s.size⟩ =
      .ok (((s.create k).2.setKind ⟨s.size⟩ .empty).setKind n k) := by
  have hcreate := h.create k
  have hne : n ≠ ⟨s.size⟩ := by
    rintro rfl
    exact Nat.lt_irrefl _ hn
  have hnone : ∀ link : Slot → Option NodeId, link { kind := k } = none →
      ((s.create k).2.slot? ⟨s.size⟩).bind link = none := by
    intro link hlink
    rw [slot?_create, if_pos rfl, Option.bind_some, hlink]
  have hroot : (s.create k).2.isRoot ⟨s.size⟩ := by
    simp only [isRoot, parent?, previous?, next?, hnone, Option.isNone_none, Bool.and_self]
  have habove : ¬(s.create k).2.isAncestor ⟨s.size⟩ n := by
    rw [isAncestor, decide_eq_true_eq, hcreate.mem_ancestors, hcreate.above_iff, h.kids_fresh]
    simp
  have hkind : (s.create k).2.kind ⟨s.size⟩ = k := kind_create s k
  rw [transplant, if_neg hne, if_neg (by simp [hroot]), if_neg habove, hkind, detachChildren,
    hcreate.children_eq, hleaf, foldl_nil]
  have hlinks := (hcreate.setKind ⟨s.size⟩ .empty).setKind n k
  rw [moveChildren, takeChildren, detachChildren, hlinks.children_eq, h.kids_fresh]
  rfl

theorem inlineReads_cons {s₁ : Store} {done : Bool} {reads : List NodeId}
    (h : s.inlineRead x value read = .ok (s₁, done)) : s.inlineReads x value (read :: reads) =
      (s₁.inlineReads x value reads).map fun r => (r.1, done :: r.2) := by
  rw [inlineReads, h]
  show (s₁.inlineReads x value reads >>= _) = _
  cases s₁.inlineReads x value reads <;> rfl

theorem inlineRead_eq (h : s.Links kids) (hvalue : kids value = [])
    (hread : s.kind read = .identifier x) (hleaf : kids read = []) :
    ∃ s', s.inlineRead x value read = .ok (s', true) ∧
      Recast s kids (update s.kind read (s.kind value)) s' := by
  have hhas : s.Has read := has_of_kind (by rw [hread]; nofun)
  refine ⟨((s.create (s.kind value)).2.setKind ⟨s.size⟩ .empty).setKind read (s.kind value),
    ?_, ((h.create _).setKind _ _).setKind _ _, ?_, ?_, rfl⟩
  · rw [inlineRead, if_pos hread, h.copy_leaf hvalue]
    have htransplant := h.transplant_create hhas hleaf (s.kind value)
    show (do return (← (s.create _).2.transplant read ⟨s.size⟩, true)) = _
    rw [htransplant]
    rfl
  · have hnew : (s.create (s.kind value)).2.Has ⟨s.size⟩ := by
      rw [Has, size_create]
      exact Nat.lt_succ_self _
    have hhas' : ((s.create (s.kind value)).2.setKind ⟨s.size⟩ .empty).Has read := by
      rw [Has, size_setKind, size_create]
      exact Nat.lt_succ_of_lt hhas
    have hfresh : s.kind ⟨s.size⟩ = .empty := by
      have hnot : ¬s.Has ⟨s.size⟩ := Nat.lt_irrefl _
      rw [kind, slot?_of_not_has hnot]
      rfl
    rw [kind_setKind_eq hhas', kind_setKind_eq hnew, kind_create_eq, update_idem, ← hfresh,
      update_eq_self]
  · rw [size_setKind, size_setKind, size_create]
    exact Nat.le_succ _

theorem inlineReads_eq (h : s.Links kids) {reads : List NodeId} (hreads : reads.Nodup)
    (hvalue : kids value = []) (hother : s.kind value ≠ .identifier x)
    (hleaf : ∀ m ∈ reads, s.kind m = .identifier x → kids m = []) :
    ∃ s', s.inlineReads x value reads =
        .ok (s', reads.map fun m => decide (s.kind m = .identifier x)) ∧
      Recast s kids (fun m => if m ∈ reads ∧ s.kind m = .identifier x then s.kind value
        else s.kind m) s' := by
  induction reads generalizing s with
  | nil => exact ⟨s, rfl, h, by simp, Nat.le_refl _, rfl⟩
  | cons read reads ih =>
    rw [nodup_cons] at hreads
    rw [forall_mem_cons] at hleaf
    by_cases hread : s.kind read = .identifier x
    · obtain ⟨s₁, hrun, h₁⟩ := h.inlineRead_eq hvalue hread (hleaf.1 hread)
      have hne : value ≠ read := fun heq => hother (heq ▸ hread)
      have hvalue₁ : s₁.kind value = s.kind value := by
        rw [h₁.kind, update_of_ne hne]
      -- The reads that are left are other nodes.
      have hrest : ∀ m ∈ reads, s₁.kind m = s.kind m := by
        intro m hm
        have hmr : m ≠ read := fun heq => hreads.1 (heq ▸ hm)
        rw [h₁.kind, update_of_ne hmr]
      obtain ⟨s', hrun', h'⟩ := ih h₁.links hreads.2 (hvalue₁ ▸ hother)
        fun m hm hkind => hleaf.2 m hm (hrest m hm ▸ hkind)
      refine ⟨s', ?_, h'.links, ?_, Nat.le_trans h₁.size h'.size, h'.symbols.trans h₁.symbols⟩
      · have hdones : reads.map (fun m => decide (s₁.kind m = .identifier x)) =
            reads.map fun m => decide (s.kind m = .identifier x) :=
          map_congr_left fun m hm => by rw [hrest m hm]
        rw [inlineReads_cons hrun, hrun', hdones, map_cons, decide_eq_true hread]
        rfl
      · rw [h'.kind]
        funext m
        simp only [hvalue₁, h₁.kind, mem_cons]
        by_cases heq : m = read
        · subst heq
          simp [hread]
        · simp [heq]
    · obtain ⟨s', hrun', h'⟩ := ih h hreads.2 hother hleaf.2
      have hskip : s.inlineRead x value read = .ok (s, false) := by
        rw [inlineRead, if_neg hread]
      refine ⟨s', ?_, h'.links, ?_, h'.size, h'.symbols⟩
      · rw [inlineReads_cons hskip, hrun', map_cons, decide_eq_false hread]
        rfl
      · rw [h'.kind]
        funext m
        simp only [mem_cons]
        by_cases heq : m = read
        · subst heq
          simp [hread]
        · simp [heq]

theorem tree_substitute (h : s.Links kids) (h' : s'.Links kids) {k : Kind}
    (hkind : ∀ m ∈ (s.tree n).preorder,
      s'.kind m = if s.kind m = .identifier x then k else s.kind m) :
    s'.tree n = (s.tree n).substitute x k := by
  induction n using h.induction with
  | step n ih =>
    rw [h.tree_eq, h'.tree_eq, h.children_eq, h'.children_eq, substitute_node,
      hkind n (h.mem_preorder_self n), List.map_map]
    congr 1
    refine map_congr_left fun c hc => ih c hc ?_
    exact fun m hm => hkind m (h.mem_preorder_child hc hm)

end Links

structure Dropped (s : Store) (x : SymbolId) (d : NodeId) (s' : Store) : Prop where
  consistent : s'.Consistent
  size : s'.size = s.size
  symbols : s'.symbols = s.symbols
  parent : ∀ m, m = d ∨ s.parent? m = none → s'.parent? m = none
  tree : ∀ n, (∀ y ∈ (s.tree n).preorder, s.kind y = .variable x → y = d) →
    s'.tree n = (s.tree n).undeclare x

theorem Links.dropDeclaration_eq (h : s.Links kids) {l r : List NodeId}
    (hlist : kids list = l ++ d :: r) :
    (s.dropDeclaration list d).Links (update kids list (l ++ r)) ∧
      (s.dropDeclaration list d).kind =
        (if l ++ r = [] then update s.kind list .empty else s.kind) ∧
      (s.dropDeclaration list d).size = s.size ∧
      (s.dropDeclaration list d).symbols = s.symbols := by
  have hdetach := h.detach hlist
  have hhas : (s.detach d).Has list := by
    rw [Has, size_detach]
    exact h.owner list d (by rw [hlist]; simp)
  have hkind : (s.detach d).kind = s.kind := funext fun m => kind_detach d m
  have hchildren : (s.detach d).hasChildren list = (l ++ r).head?.isSome := by
    rw [hasChildren, hdetach.first, update_self]
  rw [dropDeclaration]
  simp only [hchildren]
  by_cases hnil : l ++ r = []
  · have hleaf : (s.detach d).setLeaf list .empty = (s.detach d).setKind list .empty := by
      rw [setLeaf, detachChildren, hdetach.children_eq, update_self, hnil]
      rfl
    rw [if_neg (by rw [hnil]; simp), if_pos hnil, hleaf, kind_setKind_eq hhas, hkind, size_setKind,
      size_detach]
    exact ⟨hdetach.setKind _ _, rfl, rfl, symbols_detach d⟩
  · rw [if_pos (isSome_head?.mpr hnil), if_neg hnil]
    exact ⟨hdetach, hkind, size_detach d, symbols_detach d⟩

theorem Links.others_eq_self (h : s.Links kids) {cs : List NodeId}
    (hcs : ∀ c ∈ cs, s.kind c ≠ .variable x) : others x (cs.map s.tree) = cs.map s.tree := by
  rw [others, filter_eq_self, forall_mem_map]
  exact fun c hc => by simpa [h.kind_tree] using hcs c hc

theorem Links.others_eq (h : s.Links kids) {l r : List NodeId} (hd : s.kind d = .variable x)
    (hone : ∀ c ∈ l ++ r, s.kind c ≠ .variable x) :
    others x ((l ++ d :: r).map s.tree) = (l ++ r).map s.tree := by
  rw [forall_mem_append] at hone
  rw [map_append, others, filter_append, map_cons,
    filter_cons_of_neg (by simp [h.kind_tree, hd]), map_append]
  exact congrArg₂ _ (h.others_eq_self hone.1) (h.others_eq_self hone.2)

theorem Links.dropped (h : s.Links kids) (hparent : s.parent? d = some list)
    (hlistkind : s.kind list = .varStatement) (hd : s.kind d = .variable x) :
    Dropped s x d (s.dropDeclaration list d) := by
  obtain ⟨l, r, hlist⟩ := append_of_mem ((h.parent d list).mp hparent)
  obtain ⟨hlinks, hkind, hsize, hsymbols⟩ := h.dropDeclaration_eq hlist
  obtain ⟨hout, -⟩ := h.nodup_erase hlist
  refine ⟨⟨_, hlinks⟩, hsize, hsymbols, fun m hm => ?_, fun n => ?_⟩
  · rw [Option.eq_none_iff_forall_ne_some]
    intro p hp
    obtain ⟨hne, hmem⟩ := (h.mem_erase hlist m p).mp ((hlinks.parent m p).mp hp)
    exact hm.elim hne fun hm => h.not_mem hm hmem
  · induction n using h.induction with
    | step n ih =>
      intro honly
      have hleft : ∀ c ∈ update kids list (l ++ r) n, c ≠ d ∧ c ∈ kids n :=
        fun c hc => (h.mem_erase hlist c n).mp hc
      have hmap : (update kids list (l ++ r) n).map (s.dropDeclaration list d).tree =
          ((update kids list (l ++ r) n).map s.tree).map (undeclare x) := by
        rw [List.map_map]
        refine map_congr_left fun c hc => ?_
        have hck := (hleft c hc).2
        exact ih c hck fun y hy => honly y (h.mem_preorder_child hck hy)
      have hnone : ∀ c ∈ update kids list (l ++ r) n, s.kind c ≠ .variable x := by
        intro c hc hvariable
        obtain ⟨hcd, hck⟩ := hleft c hc
        exact hcd (honly c (h.mem_preorder_child hck (h.mem_preorder_self c)) hvariable)
      rw [hlinks.tree_eq, hlinks.children_eq, hkind, h.tree_eq n, h.children_eq, hmap]
      by_cases heq : n = list
      · subst heq
        rw [update_self] at hnone ⊢
        rw [hlistkind, undeclare_varStatement, hlist, h.others_eq hd hnone]
        by_cases hnil : l ++ r = []
        · simp [hnil]
        · rw [if_neg hnil, if_neg fun hboth => hnil (map_eq_nil_iff.mp hboth.1), hlistkind]
      · rw [update_of_ne heq] at hnone ⊢
        have hsame : (if l ++ r = [] then update s.kind list .empty else s.kind) n =
            s.kind n := by
          split
          · rw [update_of_ne heq]
          · rfl
        rw [hsame]
        by_cases hstatement : s.kind n = .varStatement
        · rw [hstatement, undeclare_varStatement, h.others_eq_self hnone,
            if_neg fun hboth => hboth.2 hboth.1]
        · rw [undeclare_of_ne hstatement]

end ScriptPress.Store
