import ScriptPress.Proofs.Estree.Reads

/-! # Documents are read into well-shaped trees -/

namespace ScriptPress.Element

open Tree List Kind Item

variable {role : Role} {scope : Scope} {e : Element} {n n' m : Names} {t : Tree Unit} {k : Kind}
  {items : List Item} {ts : List (Tree Unit)}

def Role.fits : Role → Fits
  | value => isExpression
  | statement => isStatement
  | block => (· == .block)
  | declaration => (· == .varStatement)
  | declarator | loopVariable => isVariable
  | property => isProperty
  | handler => isCatch

def Item.Fits (fits : Fits) : Item → Prop
  | read role _ _ => ∀ k, role.fits k → fits k
  | made t => t.Fit fits

namespace Item

variable {fits : Kind.Fits}

theorem fits_read : (read role scope e).Fits fits ↔ ∀ k, role.fits k → fits k :=
  Iff.rfl

theorem fits_leaf (hk : fits k) (hplaces : k.places? = some []) : (leaf k).Fits fits :=
  ⟨hk, (wellShaped_none hplaces).mpr rfl⟩

theorem fits_optional {f : e.Child → Item} {o : Option e.Child} (hk : fits k)
    (hplaces : k.places? = some []) (hf : ∀ c, (f c).Fits fits) : (optional k f o).Fits fits := by
  cases o with
  | none => exact fits_leaf hk hplaces
  | some c => exact hf c

theorem fits_valueOr {c : e.Child} (hrole : ∀ k, role.fits k → fits k)
    (hvalue : ∀ k : Kind, k.isExpression → fits k) :
    (valueOr role scope c).Fits fits := by
  unfold valueOr
  split
  · exact hrole
  · exact hvalue

theorem Fits.fit {item : Item} (h : item.Fits fits)
    (ht : item.Is (fun role _ _ t => t.Fit role.fits) t) : t.Fit fits := by
  cases item with
  | read role scope e => exact ⟨h _ ht.1, ht.2⟩
  | made t' => exact ht ▸ h

end Item

theorem fit_of_places {places : List Fits}
    (hts : Forall₂ (Is fun role _ _ t => t.Fit role.fits) items ts) (hk : k.places? = some places)
    (hitems : Forall₂ (fun item fits => Fits fits item) items places) :
    (plain k ts).WellShaped := by
  refine (wellShaped_of_places hk).mpr ?_
  clear hk
  induction hts generalizing places with
  | nil =>
    cases hitems
    exact .nil
  | cons ht hts ih =>
    cases hitems with
    | cons hitem hitems => exact .cons (hitem.fit ht) (ih hitems)

theorem fit_all {fits : Fits} (hts : Forall₂ (Is fun role _ _ t => t.Fit role.fits) items ts)
    (hitems : ∀ item ∈ items, item.Fits fits) : ∀ t ∈ ts, t.Fit fits := by
  induction hts with
  | nil => simp
  | cons ht hts ih =>
    rw [forall_mem_cons] at hitems ⊢
    exact ⟨hitems.1.fit ht, ih hitems.2⟩

theorem Arranges.fit (h : Arranges role scope e n k items m)
    (hts : Forall₂ (Is fun role _ _ t => t.Fit role.fits) items ts) :
    (plain k ts).Fit role.fits := by
  have hleaf : ∀ {k : Kind} {fits : Fits}, fits k → k.places? = some [] →
      (plain k []).Fit fits := fun hk hplaces => ⟨hk, (wellShaped_none hplaces).mpr rfl⟩
  have hcall : ∀ {k t ts}, k = .call ∨ k = .new → (∀ c ∈ t :: ts, c.Fit isExpression) →
      (plain k (t :: ts)).Fit isExpression := fun hk hts =>
    ⟨by rcases hk with rfl | rfl <;> rfl, (wellShaped_call hk).mpr ⟨cons_ne_nil _ _, hts⟩⟩
  have hclause : ∀ k : Kind, k.isExpression → k.fitsClause := fun k hk => by
    simp [fitsClause, hk]
  cases h with
  | literal _ hk =>
    cases hts
    cases k <;> first | exact hleaf rfl rfl | cases hk
  | call | new =>
    have hts' : ∀ t ∈ ts, t.Fit isExpression := fit_all hts
      (forall_mem_cons.mpr ⟨fun _ h => h, forall_mem_map.mpr fun c _ _ h => h⟩)
    cases hts
    exact hcall (by simp) hts'
  | power =>
    have hfunction : (plain (.member scope.known.pow)
        [.plain (.identifier scope.known.math) []]).Fit isExpression :=
      ⟨rfl, (wellShaped_singleton rfl).mpr (hleaf rfl rfl)⟩
    have hts' : ∀ t ∈ ts, t.Fit isExpression := fit_all hts
      (by simp [Item.Fits, Role.fits, hfunction])
    cases hts
    exact hcall (.inl rfl) hts'
  | function _ _ _ _ _ hparameters =>
    obtain _ | @⟨_, block, _, trees, hblock, hts⟩ := hts
    have hts : ∀ t ∈ trees, t.Fit isVariable := fit_all hts (forall_mem_map.mpr fun t ht => by
      obtain ⟨s, rfl⟩ := parameters_eq hparameters t ht
      exact ⟨rfl, (wellShaped_singleton rfl).mpr (hleaf rfl rfl)⟩)
    refine ⟨rfl, wellShaped_node.mpr ⟨checkChildren_function.mpr
      ⟨trees.map kind, ?_, ?_⟩, ?_⟩⟩
    · rw [map_cons, eq_of_beq hblock.1]
    · exact forall_mem_map.mpr fun t ht => (hts t ht).1
    · exact forall_mem_cons.mpr ⟨hblock.2, fun t ht => (hts t ht).2⟩
  | array =>
    exact ⟨rfl, (wellShaped_of_element rfl).mpr (fit_all hts (forall_mem_map.mpr fun c _ =>
      fits_optional rfl rfl fun c _ h => h))⟩
  | object | sequence =>
    exact ⟨rfl, (wellShaped_of_element rfl).mpr
      (fit_all hts (forall_mem_map.mpr fun c _ _ h => h))⟩
  | block hrole | varStatement hrole =>
    exact ⟨by rcases hrole with rfl | rfl <;> rfl, (wellShaped_of_element rfl).mpr
      (fit_all hts (forall_mem_map.mpr fun c _ _ h => h))⟩
  | declarator | «return» =>
    exact ⟨rfl, fit_of_places hts rfl (.cons (fits_optional rfl rfl fun c _ h => h) .nil)⟩
  | loopVariable => exact ⟨rfl, fit_of_places hts rfl (.cons (hleaf rfl rfl) .nil)⟩
  | ifElse =>
    exact ⟨rfl, fit_of_places hts rfl (.cons (fun _ h => h) (.cons (fun _ h => h)
      (.cons (fits_optional rfl rfl fun c _ h => h) .nil)))⟩
  | forLoop =>
    refine ⟨rfl, fit_of_places hts rfl (.cons (fits_optional rfl rfl fun c =>
      fits_valueOr ?_ ?_) (.cons (fits_optional rfl rfl fun c => hclause)
        (.cons (fits_optional rfl rfl fun c => hclause) (.cons (fun _ h => h) .nil))))⟩
    · exact fun k hk => by simp [fitsSetup, eq_of_beq hk]
    · exact fun k hk => by simp [fitsSetup, hk]
  | forIn =>
    refine ⟨rfl, fit_of_places hts rfl (.cons (fits_valueOr ?_ ?_)
      (.cons (fun _ h => h) (.cons (fun _ h => h) .nil)))⟩
    · exact fun k (hk : k.isVariable = true) => by simp [fitsHead, hk]
    · exact fun k hk => by simp [fitsHead, hk]
  | «try» =>
    refine ⟨rfl, fit_of_places hts rfl (.cons (fun _ h => h) (.cons (fits_optional rfl rfl ?_)
      (.cons (fits_optional rfl rfl ?_) .nil)))⟩
    · exact fun c k (hk : k.isCatch = true) => by simp [fitsHandler, hk]
    · exact fun c k hk => by simp [fitsFinalizer, eq_of_beq hk]
  | _ => exact ⟨rfl, fit_of_places hts rfl (by simp [Item.Fits, Role.fits])⟩

theorem Reads.fit (h : Reads role scope e n t n') : t.Fit role.fits := by
  induction h with
  | node h hts hR ih => exact h.fit (hts.forall₂ ih)
  | member _ _ _ _ _ _ ih => exact ⟨rfl, (wellShaped_singleton rfl).mpr ih⟩
  | parenthesized _ _ _ ih => exact ih
  | template _ _ hts _ ih =>
    have hleaf : ∀ s, (plain (.string s) []).Fit isExpression := fun s =>
      ⟨rfl, (wellShaped_none rfl).mpr rfl⟩
    refine chain_induction _ (P := fun t => t.Fit isExpression) (hleaf _) hleaf ?_ ?_
    · exact fun a b ha hb => ⟨rfl, (wellShaped_pair rfl).mpr ⟨ha, hb⟩⟩
    · exact fit_all (hts.forall₂ ih) (forall_mem_map.mpr fun c _ _ h => h)

end ScriptPress.Element
