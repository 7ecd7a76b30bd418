import ScriptPress.Proofs.Estree.Stray
import ScriptPress.Proofs.Tree.Form

/-! # Directives in documents -/

namespace ScriptPress

open List

namespace Json

mutual

/-- The texts of all members named `directive`, however deep in the value. -/
def directives : Json → List String
  | .array items => directivesAll items
  | .object members => directivesIn members
  | _ => []

def directivesAll : List Json → List String
  | [] => []
  | item :: items => item.directives ++ directivesAll items

def directivesOf : String × Json → List String
  | (name, v) => (if name = "directive" then v.string?.toList else []) ++ v.directives

def directivesIn : List (String × Json) → List String
  | [] => []
  | member :: members => directivesOf member ++ directivesIn members

end

variable {name : String} {v : Json}

theorem directives_subset_all (h : v ∈ items) : v.directives ⊆ directivesAll items := by
  induction items with
  | nil => cases h
  | cons item items ih =>
    rw [directivesAll]
    rcases mem_cons.mp h with rfl | h
    · exact subset_append_left _ _
    · exact Subset.trans (ih h) (subset_append_right _ _)

theorem directivesOf_subset {members : List (String × Json)} (h : find? name members = some v) :
    directivesOf (name, v) ⊆ directivesIn members := by
  induction members with
  | nil => cases h
  | cons member members ih =>
    obtain ⟨n, w⟩ := member
    rw [directivesIn]
    unfold find? at h
    split at h
    · rename_i hlater
      cases h
      exact Subset.trans (ih hlater) (subset_append_right _ _)
    · split at h
      · rename_i hname
        cases h
        subst hname
        exact subset_append_left _ _
      · cases h

end Json

namespace Element

variable {e c : Element} {name : String}

def directives (e : Element) : List String := Json.directivesIn e.fields

theorem directives_of {v : Json} (h : of v = .ok c) : c.directives = v.directives := by
  unfold of at h
  split at h
  · split at h
    · cases h
      rw [directives, Json.directives]
    · cases h
  · cases h

theorem directives_subset_field {v : Json} (h : e.field? name = some v) :
    v.directives ⊆ e.directives := by
  refine Subset.trans ?_ (Json.directivesOf_subset h)
  rw [Json.directivesOf]
  exact subset_append_right _ _

theorem mem_directives {text : String} (h : e.optionalText "directive" = some text) :
    text ∈ e.directives := by
  obtain ⟨v, hv, htext⟩ := Option.bind_eq_some_iff.mp h
  refine Json.directivesOf_subset hv ?_
  simp [Json.directivesOf, htext]

theorem At.directives_subset (h : e.At name c) : c.directives ⊆ e.directives := by
  obtain ⟨v, hv, hc | ⟨items, rfl, item, hitem, hc⟩⟩ := h
  · rw [directives_of hc]
    exact directives_subset_field hv
  · rw [directives_of hc]
    have hall := directives_subset_field hv
    rw [Json.directives] at hall
    exact Subset.trans (Json.directives_subset_all hitem) hall

end Element

def Kind.isFrom (ds : List String) : Kind → Bool
  | .directive text => text ∈ ds
  | .regExp source => source.toList.head? = some '/'
  | _ => true

def Tree.From {α : Type} (ds : List String) (t : Tree α) : Prop :=
  t.every (fun k _ => k.isFrom ds) = true

namespace Element

variable {ds : List String} {role : Role} {scope : Scope} {e c : Element}
  {n m n' : Names} {k : Kind}
  {items : List Item} {t : Tree Unit} {name : String}

theorem from_plain {cs : List (Tree Unit)} (hk : k.isFrom ds) (hcs : ∀ c ∈ cs, c.From ds) :
    (Tree.plain k cs).From ds := Tree.every_node.mpr ⟨hk, hcs⟩

theorem from_leaf (hk : k.isFrom ds) : (Tree.plain k []).From ds := from_plain hk (by simp)

def Item.Below (e : Element) : Item → Prop
  | read _ _ c => c.directives ⊆ e.directives
  | made t => ∀ ds, t.From ds

theorem below_node {a : e.Child} (h : e.node name = .ok a) : a.1.directives ⊆ e.directives :=
  ((at_node h).mpr rfl).directives_subset

theorem below_list {as : List e.Child} (h : e.list name = .ok as) :
    ∀ a ∈ as, a.1.directives ⊆ e.directives := fun a ha =>
  ((at_list h).mpr ⟨a, ha, rfl⟩).directives_subset

theorem Item.below_optional {o : Option e.Child} {f : e.Child → Item} (h : e.optional name = .ok o)
    (hf : ∀ a, a.1.directives ⊆ e.directives → (f a).Below e) (hk : ∀ ds, k.isFrom ds) :
    (optional k f o).Below e := by
  cases o with
  | none => exact fun ds => from_leaf (hk ds)
  | some a => exact hf a ((at_optional h).mpr ⟨a, rfl, rfl⟩).directives_subset

theorem Arranges.below (h : Arranges role scope e n k items m) : ∀ item ∈ items, item.Below e := by
  cases h with
  | array _ hcs =>
    refine forall_mem_map.mpr fun o ho => ?_
    cases o with
    | none => exact fun ds => from_leaf rfl
    | some a => exact ((at_nodes hcs).mpr ⟨a, ho, rfl⟩).directives_subset
  | object _ hcs | sequence _ hcs | block _ _ hcs | varStatement _ _ hcs =>
    exact forall_mem_map.mpr (below_list hcs)
  | conditional _ ha hb hc | forIn _ ha hb hc =>
    simp [Item.Below, Item.valueOr, below_node ha, below_node hb, below_node hc]
  | index _ ha hb | assign _ ha hb | binary _ ha hb | whileLoop _ ha hb | doWhile _ ha hb =>
    simp [Item.Below, below_node ha, below_node hb]
  | power _ ha hb =>
    have hfunction : ∀ ds, (Tree.plain (.member scope.known.pow)
      [.plain (.identifier scope.known.math) []]).From ds := fun _ => rfl
    simp [Item.Below, hfunction, below_node ha, below_node hb]
  | call _ hc hcs | new _ hc hcs =>
    exact forall_mem_cons.mpr ⟨below_node hc, forall_mem_map.mpr (below_list hcs)⟩
  | unary _ hc | expression _ _ hc | throw _ hc | property _ _ _ _ hc | handler _ _ _ hc
  | label _ _ _ _ hc => exact forall_mem_singleton.mpr (below_node hc)
  | declarator _ _ _ hv | «return» _ hv =>
    exact forall_mem_singleton.mpr (Item.below_optional hv (fun _ => id) fun _ => rfl)
  | loopVariable => exact forall_mem_singleton.mpr fun _ => from_leaf rfl
  | forLoop _ hi ht hu hb =>
    simp only [forall_mem_cons]
    exact ⟨Item.below_optional hi (fun _ => id) fun _ => rfl,
      Item.below_optional ht (fun _ => id) fun _ => rfl,
      Item.below_optional hu (fun _ => id) fun _ => rfl, below_node hb, by simp⟩
  | function _ _ _ _ _ hparameters hbody =>
    refine forall_mem_cons.mpr ⟨below_node hbody, forall_mem_map.mpr fun t ht ds => ?_⟩
    obtain ⟨s, rfl⟩ := parameters_eq hparameters t ht
    exact from_plain rfl (forall_mem_singleton.mpr (from_leaf rfl))
  | ifElse _ ha hb hc =>
    simp only [forall_mem_cons]
    exact ⟨below_node ha, below_node hb, Item.below_optional hc (fun _ => id) fun _ => rfl, by simp⟩
  | «try» _ hb hh hf =>
    simp only [forall_mem_cons]
    exact ⟨below_node hb, Item.below_optional hh (fun _ => id) fun _ => rfl,
      Item.below_optional hf (fun _ => id) fun _ => rfl, by simp⟩
  | _ => simp

theorem Arranges.isFrom (h : Arranges role scope e n k items m) (he : e.directives ⊆ ds) :
    k.isFrom ds := by
  cases h with
  | literal _ hk => cases k <;> first | rfl | cases hk
  | regExp _ hslash => exact decide_eq_true hslash
  | directive _ htext => exact decide_eq_true (he (mem_directives htext))
  | _ => rfl

theorem ReadsAll.from {R : Way} {ts : List (Tree Unit)} (h : ReadsAll R items n ts n')
    (hitems : ∀ item ∈ items, item.Below e) (he : e.directives ⊆ ds)
    (hR : ∀ {role scope e n t n'}, R role scope e n t n' → e.directives ⊆ ds → t.From ds) :
    ∀ t ∈ ts, t.From ds := by
  induction h with
  | nil => simp
  | @cons item _ _ _ _ _ _ h _ ih =>
    rw [forall_mem_cons] at hitems ⊢
    refine ⟨?_, ih hitems.2⟩
    cases item with
    | read role scope e => exact hR h (Subset.trans hitems.1 he)
    | made t => exact h.1 ▸ hitems.1 ds

theorem Reads.from (h : Reads role scope e n t n') (he : e.directives ⊆ ds) : t.From ds := by
  induction h with
  | node h hts _ ih => exact from_plain (h.isFrom he) (hts.from h.below he ih)
  | member _ hc _ _ _ _ ih =>
    exact from_plain rfl (forall_mem_singleton.mpr (ih (Subset.trans (below_node hc) he)))
  | parenthesized _ hc _ ih => exact ih (Subset.trans (below_node hc) he)
  | template _ hcs hts _ ih =>
    exact chain_induction _ (P := fun t => t.From ds) (from_leaf rfl) (fun _ => from_leaf rfl)
      (fun a b ha hb => from_plain rfl (by simp [ha, hb]))
      (hts.from (forall_mem_map.mpr (below_list hcs)) he ih)

end Element

end ScriptPress
