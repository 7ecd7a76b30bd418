import ScriptPress.Compile
import ScriptPress.Proofs.Usage.Trim

/-! # Inlining constants in modules -/

namespace ScriptPress

open List

namespace Tree

variable {α : Type} {x : SymbolId}

/-! ## Inlining on trees -/

def declarations (x : SymbolId) (ts : List (Tree α)) : List (Tree α) :=
  (subtreesAll ts).flatMap fun u =>
    if u.kind = .varStatement then u.children.filter fun c => c.kind = .variable x else []

/-- The literal that a symbol stands for, when it is written by its declaration only. -/
def constant? (x : SymbolId) (ts : List (Tree α)) : Option Kind :=
  if (Usages.marksOf (usesAll ts) x .write).length = 1 then
    (((declarations x ts).head?.bind fun d => d.children.head?).map kind).filter Kind.isLiteral
  else none

def onlyNamed (x : SymbolId) (ts : List (Tree α)) : Bool :=
  (subtreesAll ts).all fun u =>
    u.kind.mentioned? ≠ some x || u.kind = .identifier x || u.kind = .variable x

def inlined (x : SymbolId) (ts : List (Tree α)) : List (Tree α) × Bool :=
  match constant? x ts with
  | none => (ts, false)
  | some k =>
    if onlyNamed x ts then (ts.map fun t => (t.substitute x k).undeclare x, true)
    else (ts.map (substitute x k), (subtreesAll ts).any fun u => u.kind = .identifier x)

def inlineEach : List SymbolId → List (Tree α) → List (Tree α) × Bool
  | [], ts => (ts, false)
  | x :: xs, ts =>
    let rest := inlineEach xs (inlined x ts).1
    (rest.1, (inlined x ts).2 || rest.2)

def inlineAll (ts : List (Tree α)) : List (Tree α) × Bool :=
  inlineEach ((Usages.ofOccurrences (usesAll ts)).map Prod.fst) ts

theorem mem_declarations {ts : List (Tree α)} {d : Tree α} :
    d ∈ declarations x ts ↔ ∃ u ∈ subtreesAll ts,
      u.kind = .varStatement ∧ d ∈ u.children ∧ d.kind = .variable x := by
  simp only [declarations, mem_flatMap]
  refine exists_congr fun u => and_congr_right fun _ => ?_
  split
  · rename_i hu
    simp [hu]
  · rename_i hu
    simp [hu]

theorem preorder_substitute (k : Kind) (t : Tree α) : (t.substitute x k).preorder = t.preorder := by
  induction t with
  | node m kind cs ih =>
    rw [substitute_node, preorder_node, preorder_node, flatMap_map]
    exact congrArg (m :: ·) (flatMap_congr ih)

end Tree

namespace Store

variable {s s' : Store} {kids : NodeId → List NodeId} {roots : List NodeId} {n m y : NodeId}
  {x : SymbolId} {a : Access} {k : Kind} {d list value : NodeId} {s₁ : Store}

open Tree (usesAll subtreesAll)
open Usages (marksOf usageOf)

/-! ## The constant behind a symbol -/

structure Constant (s : Store) (kids : NodeId → List NodeId) (roots : List NodeId) (x : SymbolId)
    (list d value : NodeId) (k : Kind) : Prop where
  writes : marksOf (usesAll (roots.map s.tree)) x .write = [d]
  kind : s.kind d = .variable x
  parent : s.parent? d = some list
  kind_list : s.kind list = .varStatement
  children : kids d = [value]
  kind_value : s.kind value = k
  literal : k.isLiteral
  leaf : kids value = []

theorem Links.of_mem_declarations (h : s.Links kids) (hr : s.Modules roots)
    (hwrites : marksOf (usesAll (roots.map s.tree)) x .write = [d]) {u : Tree NodeId}
    (hu : u ∈ Tree.declarations x (roots.map s.tree)) : u = s.tree d ∧ s.kind d = .variable x ∧
      ∃ list, s.parent? d = some list ∧ s.kind list = .varStatement := by
  obtain ⟨w, hw, hstatement, hmem, hkind⟩ := Tree.mem_declarations.mp hu
  obtain ⟨p, hp, rfl⟩ := h.mem_subtreesAll.mp hw
  rw [h.children_tree] at hmem
  obtain ⟨y, hy, rfl⟩ := mem_map.mp hmem
  rw [h.kind_tree] at hstatement hkind
  have hparent := (h.parent y p).mpr hy
  obtain ⟨n, hn, hpn⟩ := mem_nodesOf.mp hp
  have hwrite := h.mem_writes_of_variable hr
    (mem_nodesOf.mpr ⟨n, hn, h.mem_preorder_of_parent hparent hpn⟩) hkind
  rw [hwrites, mem_singleton] at hwrite
  subst hwrite
  exact ⟨rfl, hkind, p, hparent, hstatement⟩

theorem Links.constant?_none (h : s.Links kids) (hr : s.Modules roots)
    (hwrites : marksOf (usesAll (roots.map s.tree)) x .write = [d])
    (hd : ∀ list, s.kind d = .variable x → s.parent? d = some list → s.kind list ≠ .varStatement) :
    Tree.constant? x (roots.map s.tree) = none := by
  have hnil : Tree.declarations x (roots.map s.tree) = [] := by
    rw [eq_nil_iff_forall_not_mem]
    intro u hu
    obtain ⟨-, hkind, list, hparent, hlist⟩ := h.of_mem_declarations hr hwrites hu
    exact hd list hkind hparent hlist
  rw [Tree.constant?, hnil, hwrites]
  rfl

theorem Links.exists_value (h : s.Links kids) (hr : s.Modules roots) (hd : d ∈ s.nodesOf roots)
    (hkind : s.kind d = .variable x) : ∃ value ∈ s.nodesOf roots, kids d = [value] := by
  have hshaped := h.shaped_of_mem hr hd
  rw [h.tree_eq, h.children_eq, hkind] at hshaped
  obtain ⟨v, hv, -⟩ := (Tree.wellShaped_one rfl).mp hshaped
  obtain ⟨value, hvalue, -⟩ := map_eq_singleton_iff.mp hv
  obtain ⟨n, hn, hdn⟩ := mem_nodesOf.mp hd
  refine ⟨value, mem_nodesOf.mpr ⟨n, hn, h.mem_preorder_of_parent ?_ hdn⟩, hvalue⟩
  exact (h.parent value d).mpr (by rw [hvalue]; simp)

theorem Links.head_declarations (h : s.Links kids) (hr : s.Modules roots)
    (hwrites : marksOf (usesAll (roots.map s.tree)) x .write = [d]) (hkind : s.kind d = .variable x)
    (hparent : s.parent? d = some list) (hlist : s.kind list = .varStatement)
    (hmem : list ∈ s.nodesOf roots) :
    (Tree.declarations x (roots.map s.tree)).head? = some (s.tree d) := by
  have hd : s.tree d ∈ Tree.declarations x (roots.map s.tree) := by
    refine Tree.mem_declarations.mpr
      ⟨s.tree list, h.mem_subtreesAll.mpr ⟨list, hmem, rfl⟩, ?_, ?_, ?_⟩
    · rw [h.kind_tree, hlist]
    · rw [h.children_tree]
      exact mem_map_of_mem ((h.parent d list).mp hparent)
    · rw [h.kind_tree, hkind]
  cases hds : Tree.declarations x (roots.map s.tree) with
  | nil =>
    rw [hds] at hd
    cases hd
  | cons u us =>
    have hu : u ∈ Tree.declarations x (roots.map s.tree) := by rw [hds]; simp
    rw [(h.of_mem_declarations hr hwrites hu).1]
    rfl

theorem Links.constant?_of_declaration (h : s.Links kids) (hr : s.Modules roots)
    (hwrites : marksOf (usesAll (roots.map s.tree)) x .write = [d]) (hkind : s.kind d = .variable x)
    (hparent : s.parent? d = some list) (hlist : s.kind list = .varStatement)
    (hmem : list ∈ s.nodesOf roots) (hvalue : kids d = [value]) :
    Tree.constant? x (roots.map s.tree) = (some (s.kind value)).filter Kind.isLiteral ∧
      s.constant? (usageOf (usesAll (roots.map s.tree)) x) =
        .ok (if (s.kind value).isLiteral then some (list, d, value) else none) := by
  constructor
  · rw [Tree.constant?, hwrites, if_pos length_singleton,
      h.head_declarations hr hwrites hkind hparent hlist hmem, Option.bind_some, h.children_tree,
      hvalue, map_singleton, List.head?_cons, Option.map_some, h.kind_tree]
  · have hvariable : (s.kind d).isVariable := by
      rw [hkind]
      rfl
    rw [Store.constant?, usageOf, hwrites]
    simp only [hvariable, hparent, hlist, Bool.not_true, Bool.false_eq_true, if_false,
      ne_eq, not_true_eq_false]
    rw [Store.part, hkind, h.children_eq, hvalue]
    rfl

theorem Links.constant?_eq (h : s.Links kids) (hr : s.Modules roots) (x : SymbolId) :
    (Tree.constant? x (roots.map s.tree) = none ∧
      s.constant? (usageOf (usesAll (roots.map s.tree)) x) = .ok none) ∨
    ∃ list d value k, Constant s kids roots x list d value k ∧
      Tree.constant? x (roots.map s.tree) = some k ∧
      s.constant? (usageOf (usesAll (roots.map s.tree)) x) = .ok (some (list, d, value)) := by
  rcases hwrites : marksOf (usesAll (roots.map s.tree)) x .write with _ | ⟨d, _ | ⟨d', ds⟩⟩
  · refine .inl ⟨?_, ?_⟩
    · rw [Tree.constant?, hwrites]
      rfl
    · rw [Store.constant?, usageOf, hwrites]
  · have hd : d ∈ marksOf (usesAll (roots.map s.tree)) x .write := by rw [hwrites]; simp
    obtain ⟨hnode, hmention, -⟩ := h.node_of_mem_marksOf hr hd
    by_cases hvariable : (s.kind d).isVariable
    · have hkind : s.kind d = .variable x := by
        cases hk : s.kind d <;> rw [hk] at hvariable hmention <;> cases hvariable
        cases hmention
        rfl
      obtain ⟨n, hn, hdn⟩ := mem_nodesOf.mp hnode
      have hne : d ≠ n := by
        rintro rfl
        rw [hr.kind d hn] at hkind
        cases hkind
      obtain ⟨list, hlistn, hparent⟩ := h.exists_parent hdn hne
      by_cases hlist : s.kind list = .varStatement
      · obtain ⟨value, hvalue, hchildren⟩ := h.exists_value hr hnode hkind
        obtain ⟨htree, hstore⟩ := h.constant?_of_declaration hr hwrites hkind hparent hlist
          (mem_nodesOf.mpr ⟨n, hn, hlistn⟩) hchildren
        rw [htree, hstore]
        by_cases hliteral : (s.kind value).isLiteral
        · have hleaf : kids value = [] := by
            have hshaped := h.shaped_of_mem hr hvalue
            rw [h.tree_eq, h.children_eq] at hshaped
            exact map_eq_nil_iff.mp
              ((Tree.wellShaped_none (Kind.places_of_isLiteral hliteral)).mp hshaped)
          exact .inr ⟨list, d, value, s.kind value,
            ⟨hwrites, hkind, hparent, hlist, hchildren, rfl, hliteral, hleaf⟩,
            by simp [Option.filter, hliteral], by rw [if_pos hliteral]⟩
        · exact .inl ⟨by simp [Option.filter, hliteral], by rw [if_neg hliteral]⟩
      · refine .inl ⟨h.constant?_none hr hwrites fun list' _ hp => ?_, ?_⟩
        · rw [hparent, Option.some.injEq] at hp
          exact hp ▸ hlist
        · rw [Store.constant?, usageOf, hwrites]
          simp [hvariable, hparent, hlist]
    · refine .inl ⟨h.constant?_none hr hwrites fun _ hk => ?_, ?_⟩
      · rw [hk] at hvariable
        exact absurd rfl hvariable
      · rw [Store.constant?, usageOf, hwrites]
        simp [hvariable]
  · refine .inl ⟨?_, ?_⟩
    · rw [Tree.constant?, hwrites]
      rfl
    · rw [Store.constant?, usageOf, hwrites]

/-! ## Inlining one symbol -/

theorem kind_ne_identifier (hk : k.isLiteral) : k ≠ .identifier x := by
  rintro rfl
  cases hk

theorem kind_ne_variable (hk : k.isLiteral) : k ≠ .variable x := by
  rintro rfl
  cases hk

namespace Constant

variable {list d value : NodeId} (hc : Constant s kids roots x list d value k)
  (h : s.Links kids) (hr : s.Modules roots)

include hc h hr

theorem eq_of_kind (hy : y ∈ s.nodesOf roots) (hk : s.kind y = .variable x) : y = d := by
  have hwrite := h.mem_writes_of_variable hr hy hk
  rwa [hc.writes, mem_singleton] at hwrite

theorem mem_reads (hy : y ∈ s.nodesOf roots) (hk : s.kind y = .identifier x) :
    y ∈ marksOf (usesAll (roots.map s.tree)) x .read := by
  obtain ⟨a, ha⟩ := h.mem_marksOf_of_node hr hy (by rw [hk]; rfl)
  cases a with
  | read => exact ha
  | write =>
    rw [hc.writes, mem_singleton] at ha
    rw [ha, hc.kind] at hk
    cases hk

theorem all_dones : ((marksOf (usesAll (roots.map s.tree)) x .read).map fun m =>
    decide (s.kind m = .identifier x)).all id = Tree.onlyNamed x (roots.map s.tree) := by
  rw [Bool.eq_iff_iff]
  simp only [all_map, Tree.onlyNamed, all_eq_true, Function.comp_apply, id_eq,
    decide_eq_true_eq, h.mem_subtreesAll, Bool.or_eq_true, forall_exists_index, and_imp]
  constructor
  · rintro hreads u y hy rfl
    rw [h.kind_tree]
    by_cases hmention : (s.kind y).mentioned? = some x
    · obtain ⟨a, ha⟩ := h.mem_marksOf_of_node hr hy hmention
      cases a with
      | read => exact .inl (.inr (hreads y ha))
      | write =>
        rw [hc.writes, mem_singleton] at ha
        exact .inr (ha ▸ hc.kind)
    · exact .inl (.inl hmention)
  · intro hall y hy
    obtain ⟨hnode, hmention, hwrite⟩ := h.node_of_mem_marksOf hr hy
    rcases hall _ y hnode rfl with (hnot | hk) | hk
    · rw [h.kind_tree] at hnot
      exact absurd hmention hnot
    · rwa [h.kind_tree] at hk
    · rw [h.kind_tree] at hk
      cases hwrite (by rw [hk]; rfl)

theorem any_dones : ((marksOf (usesAll (roots.map s.tree)) x .read).map fun m =>
    decide (s.kind m = .identifier x)).any id =
      (subtreesAll (roots.map s.tree)).any fun u => u.kind = .identifier x := by
  rw [Bool.eq_iff_iff]
  simp only [any_map, any_eq_true, Function.comp_apply, id_eq, decide_eq_true_eq, h.mem_subtreesAll]
  constructor
  · rintro ⟨y, hy, hk⟩
    exact ⟨_, ⟨y, (h.node_of_mem_marksOf hr hy).1, rfl⟩, by rw [h.kind_tree, hk]⟩
  · rintro ⟨_, ⟨y, hy, rfl⟩, hk⟩
    rw [h.kind_tree] at hk
    exact ⟨y, hc.mem_reads h hr hy hk, hk⟩

end Constant

structure Substituted (s : Store) (kids : NodeId → List NodeId) (roots : List NodeId)
    (x : SymbolId) (k : Kind) (s' : Store) : Prop where
  links : s'.Links kids
  kind : ∀ y, s'.kind y = if y ∈ s.nodesOf roots ∧ s.kind y = .identifier x then k else s.kind y
  tree : ∀ n ∈ roots, s'.tree n = (s.tree n).substitute x k
  size : s.size ≤ s'.size
  symbols : s'.symbols = s.symbols

namespace Substituted

variable (h' : Substituted s kids roots x k s')

include h'

theorem kind_of_ne (hy : s.kind y ≠ .identifier x) : s'.kind y = s.kind y := by
  rw [h'.kind, if_neg fun hboth => hy hboth.2]

theorem declares (hk : k.isLiteral) (hy : s'.kind y = .variable x) :
    s.kind y = .variable x := by
  rw [h'.kind] at hy
  split at hy
  · exact absurd hy (kind_ne_variable hk)
  · exact hy

theorem nodesOf_eq : s'.nodesOf roots = s.nodesOf roots := by
  refine flatMap_congr fun n hn => ?_
  rw [h'.tree n hn, Tree.preorder_substitute]

theorem trims (h : s.Links kids) (hk : k.isLiteral) : Trims s roots s' := by
  refine h.trims_of_kind h'.links fun y => ?_
  rw [h'.kind]
  split
  · rename_i hboth
    exact .inr ⟨hboth.1, x, hboth.2, hk⟩
  · exact .inl rfl

end Substituted

theorem Constant.substituted (hc : Constant s kids roots x list d value k) (h : s.Links kids)
    (hr : s.Modules roots) :
    ∃ s', s.inlineReads x value (marksOf (usesAll (roots.map s.tree)) x .read) =
        .ok (s', (marksOf (usesAll (roots.map s.tree)) x .read).map fun m =>
          decide (s.kind m = .identifier x)) ∧ Substituted s kids roots x k s' := by
  have hleaf : ∀ m ∈ marksOf (usesAll (roots.map s.tree)) x .read,
      s.kind m = .identifier x → kids m = [] := by
    intro m hm hk
    have hshaped := h.shaped_of_mem hr (h.node_of_mem_marksOf hr hm).1
    rw [h.tree_eq, h.children_eq, hk] at hshaped
    exact map_eq_nil_iff.mp ((Tree.wellShaped_none rfl).mp hshaped)
  have hother : s.kind value ≠ .identifier x := by
    rw [hc.kind_value]
    exact kind_ne_identifier hc.literal
  obtain ⟨s', hrun, h'⟩ := h.inlineReads_eq (h.nodup_marksOf hr) hc.leaf hother hleaf
  have hkind : ∀ y, s'.kind y =
      if y ∈ marksOf (usesAll (roots.map s.tree)) x .read ∧ s.kind y = .identifier x then k
      else s.kind y := by
    intro y
    rw [h'.kind, hc.kind_value]
  refine ⟨s', hrun, h'.links, fun y => ?_, fun n hn => ?_, h'.size, h'.symbols⟩
  · rw [hkind]
    refine if_congr (and_congr_left fun hk => ?_) rfl rfl
    exact ⟨fun hy => (h.node_of_mem_marksOf hr hy).1, fun hy => hc.mem_reads h hr hy hk⟩
  · refine h.tree_substitute h'.links fun m hm => ?_
    rw [hkind]
    by_cases hk : s.kind m = .identifier x
    · rw [if_pos hk, if_pos ⟨hc.mem_reads h hr (mem_nodesOf.mpr ⟨n, hn, hm⟩) hk, hk⟩]
    · rw [if_neg hk, if_neg fun hboth => hk hboth.2]

theorem Substituted.declaresLiterals (hc : Constant s kids roots x list d value k)
    (h : s.Links kids) (hr : s.Modules roots) (h' : Substituted s kids roots x k s')
    (hn : n ∈ roots) : ((s.tree n).substitute x k).DeclaresLiterals x := by
  intro u hu hkind
  rw [← h'.tree n hn] at hu
  obtain ⟨y, hy, rfl⟩ := (h'.links.mem_subtrees n u).mp hu
  rw [h'.tree n hn, Tree.preorder_substitute] at hy
  rw [h'.links.kind_tree] at hkind
  obtain rfl := hc.eq_of_kind h hr (mem_nodesOf.mpr ⟨n, hn, hy⟩)
    (h'.declares hc.literal hkind)
  have hvalue : s'.kind value = k := by
    rw [h'.kind_of_ne, hc.kind_value]
    rw [hc.kind_value]
    exact kind_ne_identifier hc.literal
  refine ⟨value, k, hc.literal, ?_⟩
  rw [h'.links.children_tree, hc.children, map_singleton, h'.links.tree_eq,
    h'.links.children_eq, hc.leaf, hvalue, map_nil]

/-! ### The uses of other symbols -/

theorem usageOf_congr {os os' : List (Occurrence NodeId)} {z : SymbolId} (hz : z ≠ x)
    (hos : os.filter (fun o => o.symbol ≠ x) = os'.filter fun o => o.symbol ≠ x) :
    usageOf os z = usageOf os' z := by
  have hfilter : ∀ (os : List (Occurrence NodeId)) a, marksOf os z a =
      marksOf (os.filter fun o => o.symbol ≠ x) z a := by
    intro os a
    rw [marksOf, marksOf, filter_filter]
    congr 1
    refine filter_congr fun o _ => ?_
    by_cases ho : o.symbol = z
    · simp [ho, hz]
    · simp [ho]
  rw [usageOf, usageOf, hfilter os, hfilter os, hfilter os', hfilter os', hos]

structure Inlined (s : Store) (roots : List NodeId) (x : SymbolId) (s' : Store) : Prop
    extends Keeps s roots s' where
  trees : roots.map s'.tree = (Tree.inlined x (roots.map s.tree)).1
  others : ∀ z, z ≠ x → usageOf (usesAll (roots.map s'.tree)) z =
    usageOf (usesAll (roots.map s.tree)) z
  trims : Trims s roots s'
  fewer : (Tree.inlined x (roots.map s.tree)).2 →
    (usesAll (roots.map s'.tree)).length < (usesAll (roots.map s.tree)).length

theorem Modules.of_becomes {kids' : NodeId → List NodeId} (hr : s.Modules roots) (h : s.Links kids)
    (h' : s'.Links kids') (hroots : ∀ n ∈ roots,
      (s'.tree n).WellShaped ∧ (s.tree n).kind.Becomes (s'.tree n).kind) : s'.Modules roots where
  nodup := hr.nodup
  shaped n hn := (hroots n hn).1
  kind n hn := by
    have hkind := (hroots n hn).2
    rw [h.kind_tree, h'.kind_tree, hr.kind n hn] at hkind
    rcases hkind with hkind | ⟨hkind, -⟩ | ⟨hkind, -⟩
    · exact hkind
    · cases hkind
    · cases hkind

theorem Constant.inlined_substitute (hc : Constant s kids roots x list d value k) (h : s.Links kids)
    (hr : s.Modules roots) (h' : Substituted s kids roots x k s')
    (hresult : Tree.inlined x (roots.map s.tree) = ((roots.map s.tree).map (.substitute x k),
      (subtreesAll (roots.map s.tree)).any fun u => u.kind = .identifier x)) :
    Inlined s roots x s' := by
  have htrees : roots.map s'.tree = (roots.map s.tree).map (.substitute x k) := by
    rw [map_map]
    exact map_congr_left h'.tree
  have hr' : s'.Modules roots := hr.of_becomes h h'.links fun n hn => by
    rw [h'.tree n hn]
    exact (hr.shaped n hn).substitute hc.literal
  have htrims := h'.trims h hc.literal
  refine ⟨⟨⟨kids, h'.links⟩, h'.size, h'.symbols, hr', fun n _ hn => ?_⟩, ?_, fun z hz => ?_,
    htrims, fun hflag => ?_⟩
  · rw [h.parent_congr h'.links, hn]
  · rw [htrees, hresult]
  · rw [htrees]
    refine usageOf_congr hz (Tree.filter_usesAll_map ?_)
    rw [forall_mem_map]
    exact fun n hn => Tree.filter_uses_substitute hc.literal (hr.shaped n hn) false
  · rw [hresult, any_eq_true] at hflag
    obtain ⟨u, hu, hk⟩ := hflag
    obtain ⟨y, hy, rfl⟩ := h.mem_subtreesAll.mp hu
    rw [decide_eq_true_eq, h.kind_tree] at hk
    refine htrims.length_usesAll_lt h hr h'.links hr' hy (x := x) (by rw [hk]; rfl) fun _ => ?_
    rw [h'.kind, if_pos ⟨hy, hk⟩]
    exact Kind.mentioned?_of_isLiteral hc.literal

theorem Constant.trims_drop (hc : Constant s kids roots x list d value k) (h : s.Links kids)
    (hr : s.Modules roots) (h₁ : Substituted s kids roots x k s₁)
    (honly : Tree.onlyNamed x (roots.map s.tree)) :
    d ∈ s.nodesOf roots ∧ Trims s roots (s₁.dropDeclaration list d) := by
  obtain ⟨hd, -⟩ := h.node_of_mem_marksOf hr (by rw [hc.writes]; exact mem_singleton_self d)
  have hroot : d ∉ roots := by
    intro hd
    have hk := hr.kind d hd
    rw [hc.kind] at hk
    cases hk
  obtain ⟨n, hn, hdn⟩ := mem_nodesOf.mp hd
  obtain ⟨list', hlist, hparent⟩ := h.exists_parent hdn fun heq => hroot (heq ▸ hn)
  obtain rfl : list' = list := Option.some.inj (hparent.symm.trans hc.parent)
  have hdrop : Trims s₁ roots (s₁.dropDeclaration list' d) := by
    refine h₁.links.trims_drop (x := x) ?_ ?_ ?_ ?_ hroot fun z hz hne hx => ?_
    · rw [h.parent_congr h₁.links, hparent]
    · rw [h₁.kind_of_ne, hc.kind_list]
      simp [hc.kind_list]
    · rw [h₁.nodesOf_eq]
      exact mem_nodesOf.mpr ⟨n, hn, hlist⟩
    · rw [h₁.kind_of_ne, hc.kind]
      simp [hc.kind]
    · rw [h₁.nodesOf_eq] at hz
      rw [h₁.kind] at hx
      split at hx
      · rw [Kind.mentioned?_of_isLiteral hc.literal] at hx
        cases hx
      · rename_i hother
        have hz' := all_eq_true.mp honly _ (h.mem_subtreesAll.mpr ⟨z, hz, rfl⟩)
        simp only [h.kind_tree, hx, ne_eq, not_true_eq_false, decide_false, Bool.false_or,
          Bool.or_eq_true, decide_eq_true_eq] at hz'
        rcases hz' with hk | hk
        · exact hother ⟨hz, hk⟩
        · exact hne (hc.eq_of_kind h hr hz hk)
  refine ⟨hd, (h₁.trims h hc.literal).trans h h₁.links ?_ hdrop⟩
  obtain ⟨l, r, hkids⟩ := append_of_mem ((h.parent d list').mp hparent)
  exact ⟨_, (h₁.links.dropDeclaration_eq hkids).1⟩

theorem Constant.inlined_undeclare (hc : Constant s kids roots x list d value k) (h : s.Links kids)
    (hr : s.Modules roots) (h₁ : Substituted s kids roots x k s₁) (h' : Dropped s₁ x d s')
    (hd : d ∈ s.nodesOf roots) (htrims : Trims s roots s')
    (hresult : (Tree.inlined x (roots.map s.tree)).1 =
      (roots.map s.tree).map fun t => (t.substitute x k).undeclare x) : Inlined s roots x s' := by
  have htree : ∀ n ∈ roots, s'.tree n = ((s.tree n).substitute x k).undeclare x := by
    intro n hn
    rw [← h₁.tree n hn]
    refine h'.tree n fun y hy hkind => ?_
    rw [h₁.tree n hn, Tree.preorder_substitute] at hy
    exact hc.eq_of_kind h hr (mem_nodesOf.mpr ⟨n, hn, hy⟩) (h₁.declares hc.literal hkind)
  have htrees : roots.map s'.tree =
      (roots.map s.tree).map fun t => (t.substitute x k).undeclare x := by
    rw [map_map]
    exact map_congr_left htree
  obtain ⟨kids', hlinks⟩ := h'.consistent
  have hr₁ : s₁.Modules roots := hr.of_becomes h h₁.links fun n hn => by
    rw [h₁.tree n hn]
    exact (hr.shaped n hn).substitute hc.literal
  have hr' : s'.Modules roots := hr₁.of_becomes h₁.links hlinks fun n hn => by
    rw [htree n hn, h₁.tree n hn]
    exact ((hr.shaped n hn).substitute hc.literal).1.undeclare x
  refine ⟨⟨h'.consistent, Nat.le_trans h₁.size (Nat.le_of_eq h'.size.symm),
    h'.symbols.trans h₁.symbols, hr', fun n _ hn => h'.parent n (.inr ?_)⟩, ?_, fun z hz => ?_,
    htrims, fun _ => ?_⟩
  · rw [h.parent_congr h₁.links, hn]
  · rw [htrees, hresult]
  · rw [htrees]
    refine usageOf_congr hz (Tree.filter_usesAll_map ?_)
    rw [forall_mem_map]
    intro n hn
    have hshaped := ((hr.shaped n hn).substitute hc.literal (x := x)).1
    rw [Tree.filter_uses_undeclare hshaped (h₁.declaresLiterals hc h hr hn) false,
      Tree.filter_uses_substitute hc.literal (hr.shaped n hn) false]
  · have hmention : (s.kind d).mentioned? = some x := by
      rw [hc.kind]
      rfl
    refine htrims.length_usesAll_lt h hr hlinks hr' hd hmention fun hd' => ?_
    -- The declaration itself would still mention the symbol.
    refine absurd ?_ (htrims.gone d x hc.kind ?_ d hd')
    · rwa [htrims.kind_of_isVariable (by rw [hc.kind]; rfl)]
    · rw [h'.parent d (.inl rfl), hc.parent]
      exact Option.some_ne_none list |>.symm

theorem Links.inlineSymbol_eq (h : s.Links kids) (hr : s.Modules roots) (x : SymbolId) :
    ∃ s', s.inlineSymbol x (usageOf (usesAll (roots.map s.tree)) x) =
        .ok (s', (Tree.inlined x (roots.map s.tree)).2) ∧ Inlined s roots x s' := by
  rcases h.constant?_eq hr x with ⟨htree, hstore⟩ | ⟨list, d, value, k, hc, htree, hstore⟩
  · have hsame : Tree.inlined x (roots.map s.tree) = (roots.map s.tree, false) := by
      rw [Tree.inlined, htree]
    rw [hsame]
    refine ⟨s, ?_, ⟨⟨kids, h⟩, Nat.le_refl _, rfl, hr, fun _ _ hn => hn⟩, ?_, fun _ _ => rfl,
      .refl h roots, fun hflag => ?_⟩
    · rw [inlineSymbol, hstore]
      rfl
    · rw [hsame]
    · rw [hsame] at hflag
      cases hflag
  · obtain ⟨s₁, hrun, h₁⟩ := hc.substituted h hr
    have hall := hc.all_dones h hr
    have hany := hc.any_dones h hr
    have hstep : s.inlineSymbol x (usageOf (usesAll (roots.map s.tree)) x) =
        .ok (if Tree.onlyNamed x (roots.map s.tree) then (s₁.dropDeclaration list d, true)
          else (s₁, (subtreesAll (roots.map s.tree)).any fun u => u.kind = .identifier x)) := by
      rw [inlineSymbol, hstore, ← hall, ← hany]
      show (s.inlineReads x value _ >>= _) = _
      rw [usageOf, hrun]
      show (if _ then _ else _) = _
      split <;> rfl
    cases honly : Tree.onlyNamed x (roots.map s.tree) with
    | true =>
      have hdropped : Dropped s₁ x d (s₁.dropDeclaration list d) := by
        refine h₁.links.dropped ?_ ?_ ?_
        · rw [h.parent_congr h₁.links, hc.parent]
        · rw [h₁.kind_of_ne, hc.kind_list]
          simp [hc.kind_list]
        · rw [h₁.kind_of_ne, hc.kind]
          simp [hc.kind]
      obtain ⟨hd, htrims⟩ := hc.trims_drop h hr h₁ honly
      refine ⟨_, ?_, hc.inlined_undeclare h hr h₁ hdropped hd htrims ?_⟩
      · rw [hstep, Tree.inlined, htree]
        simp only [honly, if_true]
      · rw [Tree.inlined, htree]
        simp only [honly, if_true]
    | false =>
      refine ⟨s₁, ?_, hc.inlined_substitute h hr h₁ ?_⟩
      · rw [hstep, Tree.inlined, htree]
        simp only [honly, Bool.false_eq_true, if_false]
      · rw [Tree.inlined, htree]
        simp only [honly, Bool.false_eq_true, if_false]

/-! ## Inlining all symbols -/

theorem inlineConstants_cons {u : Usage NodeId} {us : Usages NodeId} {changed : Bool}
    (h : s.inlineSymbol x u = .ok (s₁, changed)) : s.inlineConstants ((x, u) :: us) =
      (s₁.inlineConstants us).map fun r => (r.1, changed || r.2) := by
  rw [inlineConstants, h]
  show (s₁.inlineConstants us >>= _) = _
  cases s₁.inlineConstants us <;> rfl

theorem Consistent.inlineConstants_eq {us : Usages NodeId} (hs : s.Consistent)
    (hr : s.Modules roots) (hus : us.Ordered)
    (hspec : ∀ e ∈ us, e.2 = usageOf (usesAll (roots.map s.tree)) e.1) :
    ∃ s', s.inlineConstants us =
        .ok (s', (Tree.inlineEach (us.map Prod.fst) (roots.map s.tree)).2) ∧ Keeps s roots s' ∧
      roots.map s'.tree = (Tree.inlineEach (us.map Prod.fst) (roots.map s.tree)).1 := by
  induction us generalizing s with
  | nil => exact ⟨s, rfl, ⟨hs, Nat.le_refl _, rfl, hr, fun _ _ hn => hn⟩, rfl⟩
  | cons e us ih =>
    obtain ⟨x, u⟩ := e
    obtain ⟨kids, h⟩ := hs
    obtain ⟨hx, hrest⟩ := pairwise_cons.mp hus
    rw [forall_mem_cons] at hspec
    obtain rfl : u = usageOf (usesAll (roots.map s.tree)) x := hspec.1
    obtain ⟨s₁, hrun, h₁⟩ := h.inlineSymbol_eq hr x
    obtain ⟨s', hrun', h', htrees⟩ := ih h₁.consistent h₁.modules hrest fun e he => by
      have hne : e.1 ≠ x := by
        intro heq
        have hlt := hx e he
        rw [heq] at hlt
        exact Nat.lt_irrefl _ hlt
      rw [hspec.2 e he, h₁.others e.1 hne]
    refine ⟨s', ?_, h₁.toKeeps.trans h', ?_⟩
    · rw [inlineConstants_cons hrun, hrun', h₁.trees]
      rfl
    · rw [htrees, h₁.trees]
      rfl

theorem Modules.usages_eq (hr : s.Modules roots) :
    s.usages roots = .ok (Usages.ofOccurrences (usesAll (roots.map s.tree))) :=
  Usages.ofTrees_eq (forall_mem_map.mpr hr.shaped)

theorem Consistent.inlineIn_eq (hs : s.Consistent) (hr : s.Modules roots) :
    ∃ s', s.inlineIn roots = .ok (s', (Tree.inlineAll (roots.map s.tree)).2) ∧
      Keeps s roots s' ∧ roots.map s'.tree = (Tree.inlineAll (roots.map s.tree)).1 := by
  have hlists := Usages.lists_ofOccurrences (usesAll (roots.map s.tree))
  obtain ⟨s', hrun, h'⟩ := hs.inlineConstants_eq hr hlists.ordered fun e he =>
    ((hlists.mem e.1 e.2).mp he).2
  refine ⟨s', ?_, h'⟩
  rw [inlineIn, hr.usages_eq]
  exact hrun

end Store

end ScriptPress
