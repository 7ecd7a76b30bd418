import ScriptPress.Proofs.Estree.Names

/-! # Documents are read into scoped trees -/

namespace ScriptPress

open List Tree

open Reading (Settles settles_lift settles_createSymbol settles_propertySymbol grows_of_settles)

namespace Element

variable {table : Array Symbol} {role : Role} {scope : Scope} {e : Element} {n m n' : Names}
  {k : Kind} {items : List Item} {t : Tree Unit} {ts : List (Tree Unit)} {ns : List String}
  {P : Role → Scope → Element → Tree Unit → Prop} {c : e.Child} {nss : List (List String)}

def IsParameter (frame : Frame) (name : String) (t : Tree Unit) : Prop :=
  ∃ s, t = .plain (.variable s) [.plain .undefined []] ∧ frame.lookup name = some s

theorem settles_parameters (es : List Element) (frame : Frame) :
    Settles table (parameters frame es) fun r =>
      ∃ ns, Frame.Grows table frame ns r.2 ∧ Forall₂ (IsParameter r.2) ns r.1 := by
  induction es generalizing frame with
  | nil => exact .pure ⟨[], .refl table frame, .nil⟩
  | cons e es ih =>
    unfold parameters
    refine (settles_lift _).bind fun name => (Frame.settles_declare frame name).bind fun r => ?_
    refine (ih r.2).bind fun rest => .pure ?_
    rintro ⟨ns, hrest, hns⟩ ⟨hgrows, hlookup⟩ _
    refine ⟨name :: ns, hgrows.trans hrest, .cons ⟨r.1, rfl, ?_⟩ hns⟩
    exact hrest.keeps name r.1 hlookup

theorem Arranges.grows (h : Arranges role scope e n k items m) : n.Grows m := by
  cases h with
  | identifier _ _ hs | declarator _ _ hs | loopVariable _ _ _ _ _ hs =>
    exact grows_of_settles (fun _ => scope.settles_resolve _) hs
  | property _ _ _ hs => exact grows_of_settles (fun _ => settles_propertySymbol _) hs
  | handler _ _ hs => exact grows_of_settles (fun _ => Frame.settles_declare _ _) hs
  | function _ _ _ hs _ hparameters _ _ _ hframe =>
    exact ((grows_of_settles (fun _ => scope.settles_resolve _) hs).trans
      (grows_of_settles (fun _ => settles_parameters _ _) hparameters)).trans
        (grows_of_settles (fun _ => Frame.settles_declareAll _ _) hframe)
  | label _ _ _ hs => exact grows_of_settles (fun _ => settles_createSymbol _ _) hs
  | _ => exact .refl n

theorem ReadsAll.grows {R : Way} (h : ReadsAll R items n ts n')
    (hR : ∀ {role scope e n t n'}, R role scope e n t n' → n.Grows n') : n.Grows n' := by
  induction h with
  | nil => exact .refl _
  | @cons item _ _ _ _ _ _ h _ ih =>
    cases item with
    | read role scope e => exact (hR h).trans ih
    | made t => exact h.2 ▸ ih

theorem Reads.grows (h : Reads role scope e n t n') : n.Grows n' := by
  induction h with
  | node h hts _ ih => exact h.grows.trans (hts.grows ih)
  | member _ _ _ _ _ hs ih =>
    exact ih.trans (grows_of_settles (fun _ => settles_propertySymbol _) hs)
  | parenthesized _ _ _ ih => exact ih
  | template _ _ hts _ ih => exact hts.grows ih

theorem ReadsAll.settled {R : Way} (h : ReadsAll R items n ts n') (hn : n.Sound)
    (htable : Symbol.Within n'.symbols table)
    (hR : ∀ {role scope e n t n'}, R role scope e n t n' → Reads role scope e n t n')
    (ih : ∀ {role scope e n t n'}, R role scope e n t n' → n.Sound →
      Symbol.Within n'.symbols table → P role scope e t) : Forall₂ (Item.Is P) items ts := by
  induction h with
  | nil => exact .nil
  | @cons item _ _ _ _ _ _ h hs ih' =>
    cases item with
    | read role scope e =>
      obtain ⟨hm, -⟩ := (hR h).grows hn
      refine .cons (ih h hn ?_) (ih' hm htable)
      exact ((hs.grows fun h => (hR h).grows) hm).2.trans htable
    | made t =>
      obtain ⟨rfl, rfl⟩ := h
      exact .cons rfl (ih' hn htable)

def Role.Hoists : Role → Element → List String → Prop
  | value, e, ns => e.hoisted = .ok [] ∧ ns = []
  | property, _, ns => ns = []
  | declarator, e, ns => (do return (← e.node "id").1.identifierName.toOption.toList) = .ok ns
  | handler, e, ns => (do (← e.node "body").1.hoisted) = .ok ns
  | _, e, ns => e.hoisted = .ok ns

def Item.Hoists : Item → List String → Prop
  | read role _ e, ns => role.Hoists e ns
  | made _, ns => ns = []

theorem hoisted_eq_nil
    (h : e.type ∉ ["VariableDeclaration", "FunctionDeclaration", "BlockStatement", "IfStatement",
      "ForStatement", "ForInStatement", "WhileStatement", "DoWhileStatement", "LabeledStatement",
      "TryStatement"]) : e.hoisted = .ok [] := by
  rw [hoisted, hoistedFrom]
  split <;> simp_all

theorem hoisted_block {b : Element} {es : List b.Child} (htype : b.type = "BlockStatement")
    (hes : b.list "body" = .ok es) : b.hoisted = hoistedAll (es.map (·.1)) := by
  rw [hoisted, hoistedFrom, hoistedAll]
  simp only [htype, hes, mapM_map]
  rfl

def Item.Silent (item : Item) : Prop := ∀ ns, item.Hoists ns → ns = []

theorem Item.silent_value (c : e.Child) : (value scope c).Silent := fun _ h => h.2

theorem Item.silent_made (t : Tree Unit) : (made t).Silent := fun _ h => h

theorem Item.silent_optional {f : e.Child → Item} (hf : ∀ c, (f c).Silent) (o : Option e.Child) :
    (optional k f o).Silent := by
  cases o with
  | none => exact silent_made _
  | some c => exact hf c

theorem flatten_eq_nil (hitems : ∀ item ∈ items, item.Silent) (h : Forall₂ Item.Hoists items nss) :
    nss.flatten = [] := by
  induction h with
  | nil => rfl
  | cons h _ ih =>
    rw [forall_mem_cons] at hitems
    rw [flatten_cons, hitems.1 _ h, ih hitems.2]
    rfl

theorem Arranges.silent (h : Arranges .value scope e n k items m) :
    e.hoisted = .ok [] ∧ ∀ item ∈ items, item.Silent := by
  cases h with
  | array htype => exact ⟨hoisted_eq_nil (by simp [htype]), forall_mem_map.mpr fun c _ =>
      Item.silent_optional Item.silent_value c⟩
  | object htype => exact ⟨hoisted_eq_nil (by simp [htype]), forall_mem_map.mpr fun c _ _ h => h⟩
  | sequence htype =>
    exact ⟨hoisted_eq_nil (by simp [htype]), forall_mem_map.mpr fun c _ => Item.silent_value c⟩
  | call htype | new htype =>
    exact ⟨hoisted_eq_nil (by simp [htype]), forall_mem_cons.mpr ⟨Item.silent_value _,
      forall_mem_map.mpr fun c _ => Item.silent_value c⟩⟩
  | unary htype | power htype | binary htype =>
    refine ⟨hoisted_eq_nil ?_, by simp [Item.silent_value, Item.silent_made]⟩
    rcases htype with htype | htype <;> simp [htype]
  | block hrole | varStatement hrole => simp at hrole
  | _ => exact ⟨hoisted_eq_nil (by simp_all), by simp [Item.silent_value]⟩

theorem Item.hoisted_optional {f : e.Child → Item} {o : Option e.Child} {name : String}
    (ho : e.optional name = .ok o) (h : (optional k f o).Hoists ns)
    (hf : ∀ c, (f c).Hoists ns → c.1.hoisted = .ok ns) : (do match ← e.optional name with
      | some c => c.1.hoisted | none => return []) = .ok ns := by
  rw [ho]
  cases o with
  | none => exact congrArg Except.ok (Eq.symm h)
  | some c => exact hf c h

theorem Item.hoisted_block (h : (block scope c).Hoists ns) : c.1.hoisted = .ok ns := h

theorem Item.hoisted_statement (h : (statement scope c).Hoists ns) : c.1.hoisted = .ok ns := h

theorem Item.hoisted_valueOr (h : (valueOr role scope c).Hoists ns)
    (hrole : role = .declaration ∨ role = .loopVariable) : c.1.hoisted = .ok ns := by
  unfold valueOr at h
  split at h
  · rcases hrole with rfl | rfl <;> exact h
  · exact h.2 ▸ h.1

theorem Arranges.hoists (h : Arranges role scope e n k items m) (hrole : role ≠ .value)
    (hk : k.hoists? = none) (hnss : Forall₂ Item.Hoists items nss) : role.Hoists e nss.flatten := by
  cases h with
  | declarator | loopVariable | function => cases hk
  | property => exact flatten_eq_nil (by simp [Item.silent_value]) hnss
  | handler _ _ _ hc =>
    obtain _ | ⟨h, _ | _⟩ := hnss
    rw [Role.Hoists, hc, flatten_singleton]
    exact h
  | block hrole htype hcs =>
    have hall := mapM_eq_ok.mpr (forall₂_map_left_iff.mp hnss)
    have hoisted : e.hoisted = .ok nss.flatten := by
      rw [hoisted_block htype hcs, hoistedAll, mapM_map]
      exact congrArg (· >>= _) hall
    rcases hrole with rfl | rfl <;> exact hoisted
  | varStatement hrole htype hds =>
    have hall := mapM_eq_ok.mpr (forall₂_map_left_iff.mp hnss)
    have hoisted : e.hoisted = .ok nss.flatten := by
      rw [hoisted, hoistedFrom]
      simp only [htype, hds, ok_bind]
      exact congrArg (· >>= _) hall
    rcases hrole with rfl | rfl <;> exact hoisted
  | «break» htype | «continue» htype | debugger htype | empty htype | directive htype =>
    cases hnss
    exact hoisted_eq_nil (by simp [htype])
  | expression htype | throw htype =>
    rw [flatten_eq_nil (by simp [Item.silent_value]) hnss]
    exact hoisted_eq_nil (by simp [htype])
  | «return» htype =>
    rw [flatten_eq_nil (by simp [Item.silent_value, Item.silent_optional]) hnss]
    exact hoisted_eq_nil (by simp [htype])
  | forLoop htype hi ht hu hb =>
    obtain _ | ⟨h₁, _ | ⟨h₂, _ | ⟨h₃, _ | ⟨h₄, _ | _⟩⟩⟩⟩ := hnss
    have h₁ := Item.hoisted_optional hi h₁ fun c h => Item.hoisted_valueOr h (.inl rfl)
    rw [Item.silent_optional Item.silent_value _ _ h₂,
      Item.silent_optional Item.silent_value _ _ h₃]
    show e.hoisted = _
    rw [hoisted, hoistedFrom]
    simp only [htype, hb, ok_bind, Item.hoisted_statement h₄]
    exact (congrArg (· >>= _) h₁).trans (by simp [ok_bind, pure, Except.pure])
  | ifElse htype ha hb hc =>
    obtain _ | ⟨⟨-, rfl⟩, _ | ⟨h₂, _ | ⟨h₃, _ | _⟩⟩⟩ := hnss
    have h₃ := Item.hoisted_optional hc h₃ fun c h => h
    show e.hoisted = _
    rw [hoisted, hoistedFrom]
    simp only [htype, hb, ok_bind, Item.hoisted_statement h₂]
    exact (congrArg (· >>= _) h₃).trans (by simp [ok_bind, pure, Except.pure])
  | label htype hl hname hs hb => 
    obtain _ | ⟨h, _ | _⟩ := hnss
    show e.hoisted = _
    rw [hoisted, hoistedFrom]
    simp [htype, hb, ok_bind, Item.hoisted_statement h]
  | @«try» _ _ _ _ o _ htype hb hh hf =>
    obtain _ | ⟨h₁, _ | @⟨_, ns, _, _, h₂, _ | ⟨h₃, _ | _⟩⟩⟩ := hnss
    have h₃ := Item.hoisted_optional hf h₃ fun c h => h
    show e.hoisted = _
    rw [hoisted, hoistedFrom]
    simp only [htype, hb, hh, ok_bind, Item.hoisted_block h₁]
    cases o with
    | none =>
      rw [(h₂ : ns = [])]
      exact (congrArg (· >>= _) h₃).trans (by simp [ok_bind, pure, Except.pure])
    | some c =>
      obtain ⟨b, hb, h₂⟩ := exists_of_bind_eq_ok h₂
      simp only [hb, ok_bind, Child.below, h₂]
      exact (congrArg (· >>= _) h₃).trans (by simp [ok_bind, pure, Except.pure])
  | forIn htype hl hr hb => 
    obtain _ | ⟨h₁, _ | ⟨⟨-, rfl⟩, _ | ⟨h₃, _ | _⟩⟩⟩ := hnss
    show e.hoisted = _
    rw [hoisted, hoistedFrom]
    simp only [htype, hl, hb, ok_bind, Item.hoisted_valueOr h₁ (.inr rfl),
      Item.hoisted_statement h₃]
    simp [pure, Except.pure]
  | whileLoop htype ha hb => 
    obtain _ | ⟨⟨-, rfl⟩, _ | ⟨h, _ | _⟩⟩ := hnss
    show e.hoisted = _
    rw [hoisted, hoistedFrom]
    simp [htype, hb, ok_bind, Item.hoisted_statement h]
  | doWhile htype hb ha => 
    obtain _ | ⟨h, _ | ⟨⟨-, rfl⟩, _ | _⟩⟩ := hnss
    show e.hoisted = _
    rw [hoisted, hoistedFrom]
    simp [htype, hb, ok_bind, Item.hoisted_statement h]
  | _ => exact absurd rfl hrole

/-- The tree is scoped, and its declarations have the names that are hoisted. -/
def Settled (table : Array Symbol) (role : Role) (scope : Scope) (e : Element) (t : Tree Unit) :
    Prop :=
  scope.Sound table → t.Scoped table scope.known scope.frames ∧
    ∃ ns, role.Hoists e ns ∧ t.bindings.map (nameIn table) = ns.map some

theorem settled_items (hitems : ∀ item ∈ items, item.In scope) (hscope : scope.Sound table)
    (hts : Forall₂ (Item.Is (Settled table)) items ts) :
    (∀ t ∈ ts, t.Scoped table scope.known scope.frames) ∧
      ∃ nss, Forall₂ Item.Hoists items nss ∧
        (ts.flatMap bindings).map (nameIn table) = nss.flatten.map some := by
  induction hts with
  | nil => exact ⟨by simp, [], .nil, rfl⟩
  | @cons item t items ts ht _ ih =>
    rw [forall_mem_cons] at hitems
    obtain ⟨hscoped, nss, hnss, hnames⟩ := ih hitems.2
    cases item with
    | read role inner e =>
      obtain rfl := hitems.1
      obtain ⟨ht, ns, hns, hbindings⟩ := ht hscope
      refine ⟨forall_mem_cons.mpr ⟨ht, hscoped⟩, ns :: nss, .cons hns hnss, ?_⟩
      rw [flatMap_cons, map_append, hbindings, hnames, flatten_cons, map_append]
    | made t' =>
      obtain rfl := ht
      obtain ⟨hleaf, hnil⟩ : t'.Scoped table scope.known scope.frames ∧ t'.bindings = [] := by
        rcases hitems.1 with rfl | rfl <;>
          exact ⟨.neutral rfl (by simp), bindings_eq_nil rfl (by simp)⟩
      refine ⟨forall_mem_cons.mpr ⟨hleaf, hscoped⟩, [] :: nss, .cons rfl hnss, ?_⟩
      rw [flatMap_cons, hnil, nil_append, hnames, flatten_cons, nil_append]

theorem binds_of_grows {frame : Frame} {ns names : List String} {block : Tree Unit}
    {trees : List (Tree Unit)} (hgrows : Frame.Grows table [] (ns ++ names) frame)
    (hblock : block.bindings.map (nameIn table) = names.map some)
    (hns : Forall₂ (IsParameter frame) ns trees) :
    frame.Binds table ((block :: trees).flatMap bindings) := by
  have hsound : frame.Sound table := hgrows.sound (by intro name s hs; cases hs)
  have htrees : (trees.flatMap bindings).map (nameIn table) = ns.map some := by
    clear hgrows
    induction hns with
    | nil => rfl
    | @cons n t ns trees hn _ ih =>
      obtain ⟨s, rfl, hs⟩ := hn
      rw [flatMap_cons, plain, bindings_of_hoists rfl, singleton_append,
        map_cons, map_cons, ih, nameIn, hsound n s hs, Option.map_some]
  refine ⟨hsound, fun name => ?_⟩
  rw [hgrows.names, flatMap_cons, map_append, hblock, htrees]
  simp [or_comm]

theorem Arranges.settled_neutral (h : Arranges role scope e n k items m) (hk : k.isNeutral)
    (hopens : k.opensScope = false) (hhoists : k.hoists? = none)
    (hts : Forall₂ (Item.Is (Settled table)) items ts) :
    Settled table role scope e (.plain k ts) := by
  intro hscope
  rcases h.inside hopens with hitems | ⟨rfl, rfl, a, b, rfl⟩
  · obtain ⟨hscoped, nss, hnss, hnames⟩ := settled_items hitems hscope hts
    refine ⟨.neutral hk hscoped, nss.flatten, ?_, by rw [plain, bindings_node hhoists, hnames]⟩
    by_cases hrole : role = .value
    · subst hrole
      exact ⟨h.silent.1, flatten_eq_nil h.silent.2 hnss⟩
    · exact h.hoists hrole hhoists hnss
  · obtain _ | @⟨_, _, _, _, rfl, hts⟩ := hts
    obtain ⟨hscoped, nss, hnss, hnames⟩ := settled_items
      (by simp [Item.In]) hscope hts
    obtain _ | @⟨_, l, _, _, hl, _ | @⟨_, r, _, _, hr, _ | _⟩⟩ := hts
    simp only [forall_mem_cons] at hscoped
    refine ⟨.power hscoped.1 hscoped.2.1, [], ⟨h.silent.1, rfl⟩, ?_⟩
    rw [flatten_eq_nil (by simp [Item.silent_value]) hnss] at hnames
    rw [plain, bindings_node rfl, flatMap_cons, plain, bindings_node rfl]
    exact hnames

theorem names_of_hoists {s : SymbolId} {name : String} (hk : k.hoists? = some s)
    (hs : nameIn table s = some name) :
    (plain k ts).bindings.map (nameIn table) = [name].map some := by
  rw [plain, bindings_of_hoists hk, map_singleton, hs, map_singleton]

theorem eq_of_made {us : List (Tree Unit)} (h : Forall₂ (Item.Is P) (ts.map .made) us) :
    ts = us := by
  rw [forall₂_map_left_iff] at h
  exact forall₂_eq_eq_eq ▸ (h : Forall₂ (· = ·) ts us)

theorem Arranges.settled (h : Arranges role scope e n k items m) (hn : n.Sound)
    (htable : Symbol.Within m.symbols table)
    (hts : Forall₂ (Item.Is (Settled table)) items ts) :
    Settled table role scope e (.plain k ts) := by
  have h' := h
  cases h with
  | identifier htype hname hs =>
    intro hscope
    cases hts
    refine ⟨.identifier ((scope.settles_resolve _).result hs hn htable hscope).1, [], ?_, rfl⟩
    exact ⟨hoisted_eq_nil (by simp [htype]), rfl⟩
  | declarator hc hname hs hv =>
    intro hscope
    obtain ⟨hresolves, hsymbol⟩ := (scope.settles_resolve _).result hs hn htable hscope
    obtain ⟨hscoped, -⟩ := settled_items (forall_mem_singleton.mpr
      (Item.in_optional (.inl rfl) Item.in_value _)) hscope hts
    obtain _ | ⟨-, _ | _⟩ := hts
    refine ⟨.declaration hresolves (hscoped _ (.head _)), _, ?_, names_of_hoists rfl hsymbol⟩
    rw [Role.Hoists, hc, ok_bind, hname]
    rfl
  | loopVariable htype hds hinit hc hname hs =>
    intro hscope
    obtain ⟨hresolves, hsymbol⟩ := (scope.settles_resolve _).result hs hn htable hscope
    obtain _ | ⟨rfl, _ | _⟩ := hts
    refine ⟨.declaration hresolves (.neutral rfl (by simp)), _, ?_, names_of_hoists rfl hsymbol⟩
    show e.hoisted = _
    rw [hoisted, hoistedFrom]
    simp only [htype, hds, ok_bind, mapM_cons, mapM_nil, hc, hname]
    rfl
  | handler hp hname hs hc =>
    intro hscope
    obtain ⟨hframe, hsymbol⟩ := (Frame.settles_declare_nil _).result hs hn htable
    obtain _ | ⟨hbody, _ | _⟩ := hts
    simp only at hframe
    subst hframe
    obtain ⟨hbody, ns, hns, hnames⟩ := hbody (forall_mem_cons.mpr
      ⟨(Frame.Binds.handler hsymbol).sound, hscope⟩)
    refine ⟨.handler _ hsymbol (forall_mem_singleton.mpr hbody), ns, ?_, ?_⟩
    · rw [Role.Hoists, hc]
      exact hns
    · rw [plain, bindings_node rfl, flatMap_singleton]
      exact hnames
  | @function _ _ _ _ _ _ _ _ trees _ _ _ _ _ frame _ htype hc hname hs _ hparameters _ hes hnames
      hframe hbodyType =>
    intro hscope
    -- The symbols that the steps before the body have made stand in the table.
    obtain ⟨hn₁, -⟩ := grows_of_settles (fun _ => scope.settles_resolve _) hs hn
    obtain ⟨hn₂, hwithin₁⟩ := grows_of_settles (fun _ => settles_parameters _ _) hparameters hn₁
    obtain ⟨-, hwithin₂⟩ := grows_of_settles (fun _ => Frame.settles_declareAll _ _) hframe hn₂
    have htable₂ := hwithin₂.trans htable
    obtain ⟨hresolves, hsymbol⟩ := (scope.settles_resolve _).result hs hn (hwithin₁.trans htable₂)
      hscope
    obtain ⟨ns, hparameters, hns⟩ := (settles_parameters _ _).result hparameters hn₁ htable₂
    have hframe := (Frame.settles_declareAll _ _).result hframe hn₂ htable
    have hgrows := hparameters.trans hframe
    have hsound := hgrows.sound (by intro name s hs; cases hs)
    obtain _ | ⟨hblock, htrees⟩ := hts
    obtain rfl := eq_of_made htrees
    obtain ⟨hblock, names', hhoists, hblockNames⟩ :=
      hblock (forall_mem_cons.mpr ⟨hsound, hscope⟩)
    obtain rfl : _ = names' := Except.ok.inj
      (((hoisted_block hbodyType hes).trans hnames).symm.trans hhoists)
    have hns : Forall₂ (IsParameter frame) ns trees := by
      refine hns.imp ?_
      rintro n t ⟨s, ht, hs⟩
      exact ⟨s, ht, hframe.keeps n s hs⟩
    refine ⟨.function _ hresolves (binds_of_grows hgrows hblockNames hns)
      (forall_mem_cons.mpr ⟨hblock, ?_⟩), _, ?_, names_of_hoists rfl hsymbol⟩
    · intro t ht
      obtain ⟨n, -, s, rfl, hs⟩ := exists_of_forall₂ hns ht
      refine .declaration (.bound n (hsound n s hs) ?_) (.neutral rfl (by simp))
      rw [Frame.find_cons, hs, Option.some_or]
    · show e.hoisted = _
      rw [hoisted, hoistedFrom]
      simp only [htype, hc, ok_bind, hname]
      rfl
  | label htype hl hname hs hb =>
    intro hscope
    obtain _ | ⟨hbody, _ | _⟩ := hts
    obtain ⟨hbody, ns, hns, hnames⟩ := hbody hscope
    refine ⟨.neutral rfl (forall_mem_singleton.mpr hbody), ns, ?_, ?_⟩
    · exact append_nil ns ▸ h'.hoists (by simp) rfl (.cons hns .nil)
    · rwa [plain, bindings_node rfl, flatMap_singleton]
  | literal _ hk => cases k <;> first | exact h'.settled_neutral rfl rfl rfl hts | cases hk
  | _ => exact h'.settled_neutral rfl rfl rfl hts

theorem Reads.settled (h : Reads role scope e n t n') (hn : n.Sound)
    (htable : Symbol.Within n'.symbols table) : Settled table role scope e t := by
  induction h with
  | node h hts hR ih =>
    obtain ⟨hm, -⟩ := h.grows hn
    have hwithin := (hts.grows (fun h => (hR h).grows) hm).2
    exact h.settled hn (hwithin.trans htable) (hts.settled hm htable hR ih)
  | member htype _ _ _ ht hs ih =>
    intro hscope
    obtain ⟨hm, -⟩ := ht.grows hn
    have hwithin := (grows_of_settles (fun _ => settles_propertySymbol _) hs hm).2
    obtain ⟨hscoped, ns, ⟨-, rfl⟩, hnames⟩ := ih hn (hwithin.trans htable) hscope
    refine ⟨.neutral rfl (forall_mem_singleton.mpr hscoped), [], ?_, ?_⟩
    · exact ⟨hoisted_eq_nil (by simp [htype]), rfl⟩
    · rwa [plain, bindings_node rfl, flatMap_singleton]
  | parenthesized htype _ _ ih =>
    intro hscope
    obtain ⟨hscoped, ns, ⟨-, hns⟩, hnames⟩ := ih hn htable hscope
    exact ⟨hscoped, ns, ⟨hoisted_eq_nil (by simp [htype]), hns⟩, hnames⟩
  | @template scope _ _ _ ts _ _ start texts htype _ hts hR ih =>
    intro hscope
    have hts := hts.settled hn htable hR ih
    obtain ⟨hscoped, nss, hnss, hnames⟩ := settled_items (forall_mem_map.mpr fun c _ =>
      Item.in_value c) hscope hts
    rw [flatten_eq_nil (forall_mem_map.mpr fun c _ => Item.silent_value c) hnss] at hnames
    have hbindings : ∀ t ∈ ts, t.bindings = [] := by simpa using hnames
    have hleaf : ∀ s, (plain (.string s) []).Scoped table scope.known scope.frames ∧
        (plain (.string s) []).bindings = [] := fun s =>
      ⟨.neutral rfl (by simp), bindings_eq_nil rfl (by simp)⟩
    obtain ⟨hscoped, hnil⟩ := chain_induction texts
      (P := fun t => t.Scoped table scope.known scope.frames ∧ t.bindings = []) (hleaf start) hleaf
      (fun a b ha hb => ⟨.neutral rfl (by simp [ha.1, hb.1]),
        bindings_eq_nil rfl (by simp [ha.2, hb.2])⟩) fun t ht => ⟨hscoped t ht, hbindings t ht⟩
    exact ⟨hscoped, [], ⟨hoisted_eq_nil (by simp [htype]), rfl⟩, by rw [hnil]; rfl⟩

theorem settled_statements {es : List Element}
    (hrun : (es.mapM (statement scope)).run n = .ok (ts, n'))
    (hn : n.Sound) (htable : Symbol.Within n'.symbols table) (hscope : scope.Sound table) :
    (∀ t ∈ ts, t.Scoped table scope.known scope.frames) ∧
      ∃ ns, hoistedAll es = .ok ns ∧ (ts.flatMap bindings).map (nameIn table) = ns.map some := by
  have hts := (readsAll_statements hrun).settled hn htable id fun h hn htable => h.settled hn htable
  have hitems : ∀ item ∈ es.map (Item.read .statement scope), item.In scope :=
    forall_mem_map.mpr fun e _ => rfl
  obtain ⟨hscoped, nss, hnss, hnames⟩ := settled_items hitems hscope hts
  refine ⟨hscoped, nss.flatten, ?_, hnames⟩
  rw [forall₂_map_left_iff] at hnss
  rw [hoistedAll, mapM_eq_ok.mpr hnss]
  rfl

end Element

end ScriptPress
