import ScriptPress.Proofs.Usage.Scan

/-! # Putting a constant in the place of a name -/

namespace ScriptPress

open List

namespace Kind

def Becomes (x y : Kind) : Prop :=
  y = x ∨ (x.isExpression ∧ y.isExpression) ∨ (x = .varStatement ∧ y = .empty)

def Open (fits : Fits) : Prop := ∀ ⦃x y : Kind⦄, x.Becomes y → fits x → fits y

theorem open_of_stable {fits : Fits} (h : Stable fits)
    (he : fits .varStatement → fits .empty) : Open fits := by
  rintro x y (rfl | ⟨hx, hy⟩ | ⟨rfl, rfl⟩) hfits
  · exact hfits
  · exact h (.expression hx hy) hfits
  · exact he hfits

theorem open_of_places {k : Kind} {places : List Fits} (hp : k.places? = some places) :
    ∀ fits ∈ places, Open fits := by
  have he : ∀ fits ∈ places, fits .varStatement → fits .empty := by
    cases k <;> cases hp <;> decide
  exact fun fits hf => open_of_stable (stable_of_places hp fits hf) (he fits hf)

theorem open_of_element {k : Kind} {fits : Fits} (hp : k.element? = some fits) : Open fits := by
  refine open_of_stable (stable_of_element hp) ?_
  cases k <;> cases hp <;> decide

theorem checkChildren_becomes {k : Kind} {ks ks' : List Kind}
    (h : k.checkChildren ks = .ok ()) (hks : Forall₂ Becomes ks ks') :
    k.checkChildren ks' = .ok () := by
  have hall : ∀ {fits : Fits} {ks ks' : List Kind}, Open fits → Forall₂ Becomes ks ks' →
      (∀ x ∈ ks, fits x) → ∀ y ∈ ks', fits y := by
    intro fits ks ks' hopen hks
    induction hks with
    | nil => exact fun h => h
    | cons hxy _ ih =>
      rw [forall_mem_cons, forall_mem_cons]
      exact fun ⟨hx, hr⟩ => ⟨hopen hxy hx, ih hr⟩
  rcases k.places_cases with ⟨places, hp⟩ | ⟨fits, hp⟩ | hk | ⟨s, rfl⟩
  · rw [checkChildren_of_places hp] at h ⊢
    have hopen := open_of_places hp
    clear hp
    induction hks generalizing places with
    | nil => exact h
    | cons hxy _ ih =>
      cases h with
      | cons hx hr =>
        exact .cons (hopen _ (.head _) hxy hx)
          (ih _ hr fun f hf => hopen f (.tail _ hf))
  · rw [checkChildren_of_element hp] at h ⊢
    exact hall (open_of_element hp) hks h
  · rw [checkChildren_call hk] at h ⊢
    refine ⟨?_, hall (open_of_stable stable_isExpression nofun) hks h.2⟩
    rintro rfl
    cases hks
    exact h.1 rfl
  · rw [checkChildren_function] at h ⊢
    obtain ⟨rest, rfl, hrest⟩ := h
    cases hks with
    | @cons _ y _ ks' hxy hr =>
      have hy : y = block := by
        rcases hxy with rfl | ⟨hx, -⟩ | ⟨hx, -⟩
        · rfl
        · cases hx
        · cases hx
      exact ⟨ks', by rw [hy], hall (open_of_stable stable_isVariable nofun) hr hrest⟩

end Kind

namespace Tree

variable {α : Type} {x : SymbolId} {k : Kind} {t : Tree α} {kind : Kind}

theorem WellShaped.becomes {m : α} (h : (node m k cs).WellShaped)
    (hf : ∀ c ∈ cs, (f c).WellShaped ∧ c.kind.Becomes (f c).kind) :
    (node m k (cs.map f)).WellShaped := by
  rw [wellShaped_node] at h ⊢
  refine ⟨Kind.checkChildren_becomes h.1 ?_, ?_⟩
  · rw [List.map_map, List.forall₂_map_left_iff, List.forall₂_map_right_iff, List.forall₂_same]
    exact fun c hc => (hf c hc).2
  · rw [forall_mem_map]
    exact fun c hc => (hf c hc).1

mutual

def substitute (x : SymbolId) (k : Kind) : Tree α → Tree α
  | node m kind cs => node m (if kind = .identifier x then k else kind) (substituteAll x k cs)

def substituteAll (x : SymbolId) (k : Kind) : List (Tree α) → List (Tree α)
  | [] => []
  | c :: cs => substitute x k c :: substituteAll x k cs

end

@[simp] theorem substitute_node (m : α) (kind : Kind) (cs : List (Tree α)) :
    (node m kind cs).substitute x k =
      node m (if kind = .identifier x then k else kind) (cs.map (substitute x k)) := by
  have h : ∀ cs : List (Tree α), substituteAll x k cs = cs.map (substitute x k) := by
    intro cs
    induction cs with
    | nil => rw [substituteAll, map_nil]
    | cons c cs ih => rw [substituteAll, map_cons, ih]
  rw [substitute, h]

theorem kind_substitute (t : Tree α) :
    (t.substitute x k).kind = if t.kind = .identifier x then k else t.kind := by
  obtain ⟨m, kind, cs⟩ := t
  rw [substitute_node, kind_node, kind_node]

theorem WellShaped.substitute (hk : k.isLiteral) (h : t.WellShaped) :
    (t.substitute x k).WellShaped ∧ t.kind.Becomes (t.substitute x k).kind := by
  induction t with
  | node m kind cs ih =>
    rw [substitute_node]
    split
    · rename_i heq
      subst heq
      obtain rfl := (wellShaped_none rfl).mp h
      exact ⟨(wellShaped_none (Kind.places_of_isLiteral hk)).mpr rfl,
        .inr (.inl ⟨rfl, Kind.isExpression_of_isLiteral hk⟩)⟩
    · exact ⟨h.becomes fun c hc => ih c hc (h.child c hc), .inl rfl⟩

mutual

def undeclare (x : SymbolId) : Tree α → Tree α
  | node m kind cs =>
    let kept := (undeclareAll x cs).filter fun c => c.kind ≠ .variable x
    if kind ≠ .varStatement then node m kind (undeclareAll x cs)
    else if kept.isEmpty && !cs.isEmpty then node m .empty []
    else node m kind kept

def undeclareAll (x : SymbolId) : List (Tree α) → List (Tree α)
  | [] => []
  | c :: cs => undeclare x c :: undeclareAll x cs

end

theorem undeclareAll_eq (cs : List (Tree α)) : undeclareAll x cs = cs.map (undeclare x) := by
  induction cs with
  | nil => rw [undeclareAll, map_nil]
  | cons c cs ih => rw [undeclareAll, map_cons, ih]

theorem undeclare_of_ne {m : α} (h : kind ≠ .varStatement) :
    (node m kind cs).undeclare x = node m kind (cs.map (undeclare x)) := by
  rw [undeclare, if_pos h, undeclareAll_eq]

theorem kind_undeclare_of_ne (h : t.kind ≠ .varStatement) : (t.undeclare x).kind = t.kind := by
  obtain ⟨m, kind, cs⟩ := t
  rw [undeclare_of_ne (show kind ≠ _ from h), kind_node, kind_node]

theorem kind_undeclare_cases (x : SymbolId) (t : Tree α) :
    (t.undeclare x).kind = t.kind ∨ (t.kind = .varStatement ∧ (t.undeclare x).kind = .empty) := by
  obtain ⟨m, kind, cs⟩ := t
  rw [undeclare]
  split
  · exact .inl rfl
  · rename_i heq
    rw [ne_eq, not_not] at heq
    split
    · exact .inr ⟨heq, rfl⟩
    · exact .inl rfl

def others (x : SymbolId) (cs : List (Tree α)) : List (Tree α) :=
  cs.filter fun c => c.kind ≠ .variable x

theorem undeclare_varStatement (m : α) (cs : List (Tree α)) :
    (node m .varStatement cs).undeclare x = if others x cs = [] ∧ cs ≠ [] then node m .empty []
      else node m .varStatement ((others x cs).map (undeclare x)) := by
  have hfilter : (cs.map (undeclare x)).filter (fun c => c.kind ≠ .variable x) =
      (others x cs).map (undeclare x) := by
    rw [List.filter_map, others]
    congr 2
    funext c
    show decide ((c.undeclare x).kind ≠ _) = _
    rcases kind_undeclare_cases x c with h | ⟨h, h'⟩
    · rw [h]
    · rw [h, h']
      rfl
  rw [undeclare, if_neg (by simp), undeclareAll_eq, hfilter]
  simp only [Bool.and_eq_true, Bool.not_eq_true', List.isEmpty_iff, List.map_eq_nil_iff, ne_eq,
    List.isEmpty_eq_false_iff]

theorem WellShaped.undeclare (x : SymbolId) (h : t.WellShaped) :
    (t.undeclare x).WellShaped ∧ t.kind.Becomes (t.undeclare x).kind := by
  induction t with
  | node m kind cs ih =>
    have hcs : ∀ c ∈ cs, (c.undeclare x).WellShaped ∧ c.kind.Becomes (c.undeclare x).kind :=
      fun c hc => ih c hc (h.child c hc)
    by_cases hkind : kind = .varStatement
    · subst hkind
      rw [undeclare_varStatement]
      split
      · exact ⟨(wellShaped_none rfl).mpr rfl, .inr (.inr ⟨rfl, rfl⟩)⟩
      · have hothers : (node m .varStatement (others x cs)).WellShaped := by
          rw [wellShaped_of_element rfl] at h ⊢
          exact fun c hc => h c (mem_filter.mp hc).1
        exact ⟨hothers.becomes fun c hc => hcs c (mem_filter.mp hc).1, .inl rfl⟩
    · rw [undeclare_of_ne hkind]
      exact ⟨h.becomes hcs, .inl rfl⟩

section

variable {p : Occurrence α → Bool} {f : Tree α → Tree α}

theorem filter_usesAll_map (hf : ∀ c ∈ cs, ((f c).uses false).filter p = (c.uses false).filter p) :
    (usesAll (cs.map f)).filter p = (usesAll cs).filter p := by
  rw [usesAll_eq, usesAll_eq, flatMap_map, filter_flatMap, filter_flatMap]
  exact flatMap_congr hf

theorem filter_uses_map {m : α} {target : Bool} (h : (node m kind cs).WellShaped)
    (hf : ∀ c ∈ cs, ∀ b, ((f c).uses b).filter p = (c.uses b).filter p) :
    ((node m kind (cs.map f)).uses target).filter p = ((node m kind cs).uses target).filter p := by
  have hall := filter_usesAll_map fun c hc => hf c hc false
  cases kind with
  | member s =>
    obtain ⟨o, rfl, -⟩ := (wellShaped_one rfl).mp h
    have ho := hf o (.head _) false
    rw [map_singleton, uses, uses]
    split
    · rw [filter_append, filter_append, ho]
    · rw [filter_cons, filter_cons, ho]
  | unary op =>
    obtain ⟨a, rfl, -⟩ := (wellShaped_one rfl).mp h
    rw [map_singleton, uses, uses, hf a mem_cons_self]
  | assign op =>
    obtain ⟨a, b, rfl, -⟩ := (wellShaped_two rfl).mp h
    rw [map_cons, map_singleton, uses, uses, filter_append, filter_append,
      hf a mem_cons_self, hf b (by simp)]
  | forIn =>
    obtain ⟨a, b, c, rfl, -⟩ := (wellShaped_three rfl).mp h
    rw [map_cons, map_cons, map_singleton, uses, uses]
    simp only [filter_append]
    rw [hf a mem_cons_self, hf b (by simp), hf c (by simp)]
  | identifier s | «break» l | «continue» l =>
    obtain rfl := (wellShaped_none rfl).mp h
    rfl
  | function s | label s | property s | «variable» s | «catch» s =>
    rw [uses, uses, filter_cons, filter_cons, hall]
  | _ =>
    rw [uses.eq_def, uses.eq_def]
    exact hall

end

theorem uses_literal {m : α} (hk : k.isLiteral) (target : Bool) :
    (node m k []).uses target = [] := by
  cases k <;> first | rfl | cases hk

theorem filter_uses_substitute (hk : k.isLiteral) (h : t.WellShaped) (target : Bool) :
    ((t.substitute x k).uses target).filter (fun o => o.symbol ≠ x) =
      (t.uses target).filter fun o => o.symbol ≠ x := by
  induction t generalizing target with
  | node m kind cs ih =>
    rw [substitute_node]
    split
    · rename_i heq
      subst heq
      obtain rfl := (wellShaped_none rfl).mp h
      rw [map_nil, uses_literal hk, uses]
      simp
    · exact filter_uses_map h fun c hc => ih c hc (h.child c hc)

def DeclaresLiterals (x : SymbolId) (t : Tree α) : Prop :=
  ∀ u ∈ t.subtrees, u.kind = .variable x → ∃ m k, k.isLiteral ∧ u.children = [node m k []]

theorem filter_usesAll_others {m : α} (h : (node m kind cs).DeclaresLiterals x) :
    (usesAll (others x cs)).filter (fun o => o.symbol ≠ x) =
      (usesAll cs).filter fun o => o.symbol ≠ x := by
  have hnone : ∀ c ∈ cs, c.kind = .variable x →
      (c.uses false).filter (fun o => o.symbol ≠ x) = [] := by
    intro c hc hkind
    obtain ⟨v, k, hk, hv⟩ :=
      h c (mem_subtrees_node.mpr (.inr ⟨c, hc, mem_subtrees_self c⟩)) hkind
    obtain ⟨d, kind', vs⟩ := c
    obtain rfl : kind' = _ := hkind
    obtain rfl : vs = _ := hv
    rw [uses, usesAll, usesAll, uses_literal hk]
    simp
  clear h
  induction cs with
  | nil => rfl
  | cons c cs ih =>
    have hrest := ih fun d hd => hnone d (.tail _ hd)
    rw [usesAll, filter_append, ← hrest]
    by_cases hkind : c.kind = .variable x
    · rw [hnone c mem_cons_self hkind, others, filter_cons_of_neg (by simpa)]
      rfl
    · rw [others, filter_cons_of_pos (by simpa), usesAll, filter_append]
      rfl

theorem filter_uses_undeclare (h : t.WellShaped) (hx : t.DeclaresLiterals x) (target : Bool) :
    ((t.undeclare x).uses target).filter (fun o => o.symbol ≠ x) =
      (t.uses target).filter fun o => o.symbol ≠ x := by
  induction t generalizing target with
  | node m kind cs ih =>
    have hchild : ∀ c ∈ cs, c.DeclaresLiterals x := fun c hc u hu =>
      hx u (mem_subtrees_node.mpr (.inr ⟨c, hc, hu⟩))
    have hcs := fun c hc => ih c hc (h.child c hc) (hchild c hc)
    by_cases hkind : kind = .varStatement
    · subst hkind
      have hothers := filter_usesAll_others hx
      have hlist : ∀ {m : α} {ds : List (Tree α)},
          (node m .varStatement ds).uses target = usesAll ds := by
        intro m ds
        rw [uses.eq_def]
      rw [undeclare_varStatement, hlist, ← hothers]
      split
      · rename_i hnil
        rw [hnil.1]
        rfl
      · rw [hlist]
        exact filter_usesAll_map fun c hc => hcs c (mem_filter.mp hc).1 false
    · rw [undeclare_of_ne hkind]
      exact filter_uses_map h hcs

end Tree

end ScriptPress
