import ScriptPress.Proofs.Estree.Shape
import ScriptPress.Proofs.Tree.Scope

/-! # The symbols that a reading makes -/

namespace ScriptPress

def Symbol.Within (table table' : Array Symbol) : Prop :=
  ∀ (i : Nat) (symbol : Symbol), table[i]? = some symbol → table'[i]? = some symbol

def Names.Sound (names : Names) : Prop :=
  ∀ name s, names.globals.lookup name = some s → names.symbols[s.index]? = some ⟨name, true⟩

theorem Symbol.within_push (symbols : Array Symbol) (symbol : Symbol) :
    Symbol.Within symbols (symbols.push symbol) := by
  intro i x hi
  have hlt := (Array.getElem?_eq_some_iff.mp hi).1
  rw [Array.getElem?_push_lt hlt, ← hi, Array.getElem?_eq_getElem hlt]

def Names.Grows (names names' : Names) : Prop :=
  names.Sound → names'.Sound ∧ Symbol.Within names.symbols names'.symbols

theorem Symbol.Within.trans {a b c : Array Symbol} (h : Within a b) (h' : Within b c) :
    Within a c := fun i symbol hi => h' i symbol (h i symbol hi)

theorem Names.Grows.refl (names : Names) : names.Grows names := fun h => ⟨h, fun _ _ hi => hi⟩

theorem Names.Grows.trans {a b c : Names} (h : a.Grows b) (h' : b.Grows c) : a.Grows c :=
  fun ha => ⟨(h' (h ha).1).1, (h ha).2.trans (h' (h ha).1).2⟩

theorem exists_of_forall₂ {α β : Type} {R : α → β → Prop} {as : List α} {bs : List β}
    (h : List.Forall₂ R as bs) {b : β} (hb : b ∈ bs) : ∃ a ∈ as, R a b := by
  induction h with
  | nil => cases hb
  | cons hR _ ih =>
    rcases List.mem_cons.mp hb with rfl | hb
    · exact ⟨_, List.mem_cons_self, hR⟩
    · obtain ⟨a, ha, hR⟩ := ih hb
      exact ⟨a, List.mem_cons_of_mem _ ha, hR⟩

namespace Reading

variable {α β : Type} {table : Array Symbol} {P : α → Prop} {Q : β → Prop} {x : Reading α} {a : α}

def Settles (table : Array Symbol) (x : Reading α) (P : α → Prop) : Prop :=
  ∀ names a names', names.Sound → x.run names = .ok (a, names') →
    names'.Sound ∧ (Symbol.Within names'.symbols table → Symbol.Within names.symbols table ∧ P a)

theorem Settles.pure (h : P a) : Settles table (Pure.pure a) P := by
  intro names b names' hnames hrun
  cases hrun
  exact ⟨hnames, fun htable => ⟨htable, h⟩⟩

theorem Settles.mono {P' : α → Prop} (h : Settles table x P) (hP : ∀ a, P a → P' a) :
    Settles table x P' := by
  intro names a names' hnames hrun
  obtain ⟨hnames', ha⟩ := h names a names' hnames hrun
  exact ⟨hnames', fun htable => ⟨(ha htable).1, hP a (ha htable).2⟩⟩

theorem Settles.bind {f : α → Reading β} (hx : Settles table x P)
    (hf : ∀ a, Settles table (f a) fun b => P a → Q b) : Settles table (x >>= f) Q := by
  intro names b names' hnames hrun
  rw [StateT.run_bind] at hrun
  cases hr : x.run names with
  | error d =>
    rw [hr] at hrun
    cases hrun
  | ok p =>
    rw [hr] at hrun
    obtain ⟨hmiddle, ha⟩ := hx names p.1 p.2 hnames hr
    obtain ⟨hnames', hb⟩ := hf p.1 p.2 b names' hmiddle hrun
    refine ⟨hnames', fun htable => ?_⟩
    obtain ⟨hwithin, hb⟩ := hb htable
    obtain ⟨hwithin, ha⟩ := ha hwithin
    exact ⟨hwithin, hb ha⟩

theorem settles_lift (x : Except Defect α) : Settles table (liftM x) fun a => x = .ok a := by
  intro names a names' hnames hrun
  cases x with
  | error d => cases hrun
  | ok b =>
    cases hrun
    exact ⟨hnames, fun htable => ⟨htable, rfl⟩⟩

theorem Settles.result {names names' : Names} (h : Settles table x P)
    (hrun : x.run names = .ok (a, names')) (hnames : names.Sound)
    (htable : Symbol.Within names'.symbols table) : P a :=
  ((h names a names' hnames hrun).2 htable).2

theorem grows_of_settles {P : Array Symbol → α → Prop} {names names' : Names}
    (h : ∀ table, Settles table x (P table)) (hrun : x.run names = .ok (a, names')) :
    names.Grows names' := by
  intro hnames
  obtain ⟨hnames', hresult⟩ := h names'.symbols names a names' hnames hrun
  exact ⟨hnames', (hresult fun _ _ hi => hi).1⟩

theorem settles_createSymbol (name : String) (pinned : Bool) :
    Settles table (createSymbol name pinned) fun s => table[s.index]? = some ⟨name, pinned⟩ := by
  intro names s names' hnames hrun
  cases hrun
  have hpush := Symbol.within_push names.symbols ⟨name, pinned⟩
  refine ⟨fun other x hx => hpush _ _ (hnames other x hx), fun htable => ⟨?_, ?_⟩⟩
  · exact fun i symbol hi => htable i symbol (hpush i symbol hi)
  · exact htable _ _ Array.getElem?_push_size

theorem run_globalSymbol (name : String) (names : Names) : (globalSymbol name).run names = .ok
      (match names.globals.lookup name with
      | some s => (s, names)
      | none => (⟨names.symbols.size⟩, ⟨names.symbols.push ⟨name, true⟩,
          names.globals ++ [(name, ⟨names.symbols.size⟩)], names.properties⟩)) := by
  simp only [globalSymbol, bind, StateT.bind, StateT.run, get, getThe, MonadStateOf.get, StateT.get,
    pure, Except.pure, Except.bind]
  cases names.globals.lookup name <;> rfl

theorem run_propertySymbol (name : String) (names : Names) : (propertySymbol name).run names = .ok
      (match names.properties.lookup name with
      | some s => (s, names)
      | none => (⟨names.symbols.size⟩, ⟨names.symbols.push ⟨name, true⟩, names.globals,
          names.properties ++ [(name, ⟨names.symbols.size⟩)]⟩)) := by
  simp only [propertySymbol, bind, StateT.bind, StateT.run, get, getThe, MonadStateOf.get,
    StateT.get, pure, Except.pure, Except.bind]
  cases names.properties.lookup name <;> rfl

theorem settles_globalSymbol (name : String) :
    Settles table (globalSymbol name) fun s => table[s.index]? = some ⟨name, true⟩ := by
  intro names s names' hnames hrun
  rw [run_globalSymbol] at hrun
  cases hlookup : names.globals.lookup name with
  | some x =>
    rw [hlookup] at hrun
    cases hrun
    exact ⟨hnames, fun htable => ⟨htable, htable _ _ (hnames name s hlookup)⟩⟩
  | none =>
    rw [hlookup] at hrun
    cases hrun
    have hpush := Symbol.within_push names.symbols ⟨name, true⟩
    refine ⟨fun other x hx => ?_, fun htable => ⟨?_, htable _ _ Array.getElem?_push_size⟩⟩
    · rw [List.lookup_append, Frame.lookup_singleton] at hx
      cases hother : names.globals.lookup other with
      | some y =>
        rw [hother] at hx
        cases hx
        exact hpush _ _ (hnames other x hother)
      | none =>
        rw [hother, Option.none_or] at hx
        split at hx
        · rename_i heq
          cases hx
          rw [heq]
          exact Array.getElem?_push_size
        · cases hx
    · exact fun i symbol hi => htable i symbol (hpush i symbol hi)

theorem settles_propertySymbol (name : String) :
    Settles table (propertySymbol name) fun _ => True := by
  intro names s names' hnames hrun
  rw [run_propertySymbol] at hrun
  cases hlookup : names.properties.lookup name with
  | some x =>
    rw [hlookup] at hrun
    cases hrun
    exact ⟨hnames, fun htable => ⟨htable, trivial⟩⟩
  | none =>
    rw [hlookup] at hrun
    cases hrun
    have hpush := Symbol.within_push names.symbols ⟨name, true⟩
    refine ⟨fun other x hx => hpush _ _ (hnames other x hx), fun htable => ⟨?_, trivial⟩⟩
    exact fun i symbol hi => htable i symbol (hpush i symbol hi)

end Reading

open Reading (Settles settles_createSymbol settles_globalSymbol)

namespace Frame

variable {table : Array Symbol} {frame frame' frame'' : Frame} {ns ns' : List String}

structure Grows (table : Array Symbol) (frame : Frame) (ns : List String) (frame' : Frame) :
    Prop where
  keeps : ∀ name s, frame.lookup name = some s → frame'.lookup name = some s
  names : ∀ name, (frame'.lookup name).isSome ↔ (frame.lookup name).isSome ∨ name ∈ ns
  sound : frame.Sound table → frame'.Sound table

theorem Grows.refl (table : Array Symbol) (frame : Frame) : Grows table frame [] frame :=
  ⟨fun _ _ h => h, fun _ => by simp, fun h => h⟩

theorem Grows.trans (h : Grows table frame ns frame') (h' : Grows table frame' ns' frame'') :
    Grows table frame (ns ++ ns') frame'' := by
  refine ⟨fun name s hs => h'.keeps name s (h.keeps name s hs), fun name => ?_,
    fun hframe => h'.sound (h.sound hframe)⟩
  rw [h'.names, h.names, List.mem_append, or_assoc]

theorem Grows.push {name : String} {s : SymbolId} (hs : table[s.index]? = some ⟨name, false⟩) :
    Grows table frame [name] (frame ++ [(name, s)]) := by
  have hlookup : ∀ other, List.lookup other (frame ++ [(name, s)]) =
      (frame.lookup other).or (if other = name then some s else none) := by
    intro other
    rw [List.lookup_append, lookup_singleton]
  refine ⟨fun other x hx => ?_, fun other => ?_, fun hframe other x hx => ?_⟩
  · rw [hlookup, hx, Option.some_or]
  · rw [hlookup, Option.isSome_or, Bool.or_eq_true, List.mem_singleton]
    split <;> simp_all
  · rw [hlookup] at hx
    cases hother : frame.lookup other with
    | some y =>
      rw [hother] at hx
      cases hx
      exact hframe other x hother
    | none =>
      rw [hother, Option.none_or] at hx
      split at hx
      · rename_i heq
        cases hx
        rw [heq, hs]
      · cases hx

theorem settles_declare (frame : Frame) (name : String) :
    Settles table (frame.declare name) fun r =>
      Grows table frame [name] r.2 ∧ r.2.lookup name = some r.1 := by
  unfold declare
  cases hlookup : frame.lookup name with
  | some s =>
    refine .pure ⟨⟨fun _ _ h => h, fun other => ?_, fun h => h⟩, hlookup⟩
    rw [List.mem_singleton, or_iff_left_of_imp]
    rintro rfl
    rw [hlookup, Option.isSome_some]
  | none =>
    refine (settles_createSymbol name false).bind fun s => .pure fun hs => ?_
    refine ⟨.push hs, ?_⟩
    rw [List.lookup_append, hlookup, lookup_singleton, Option.none_or, if_pos rfl]

theorem settles_declare_nil (name : String) : Settles table (declare [] name) fun r =>
      r.2 = [(name, r.1)] ∧ table[r.1.index]? = some ⟨name, false⟩ :=
  (settles_createSymbol name false).bind fun _ => .pure fun hs => ⟨rfl, hs⟩

theorem settles_declareAll (ns : List String) (frame : Frame) :
    Settles table (frame.declareAll ns) (Grows table frame ns) := by
  induction ns generalizing frame with
  | nil => exact .pure (.refl table frame)
  | cons name ns ih =>
    refine (settles_declare frame name).bind fun r => (ih r.2).mono fun frame' h' h => ?_
    exact h.1.trans h'

end Frame

def Scope.Sound (table : Array Symbol) (scope : Scope) : Prop :=
  ∀ frame ∈ scope.frames, frame.Sound table

theorem Scope.settles_resolve {table : Array Symbol} (scope : Scope) (name : String) :
    Settles table (scope.resolve name) fun s =>
      scope.Sound table → Frame.Resolves table scope.frames s ∧ nameIn table s = some name := by
  unfold resolve
  cases hfind : scope.frames.findSome? (·.lookup name) with
  | some s =>
    refine .pure fun hframes => ?_
    obtain ⟨frame, hframe, hlookup⟩ := List.exists_of_findSome?_eq_some hfind
    have hs := hframes frame hframe name s hlookup
    exact ⟨.bound name hs hfind, by rw [nameIn, hs, Option.map_some]⟩
  | none =>
    refine (settles_globalSymbol name).mono fun s hs _ => ?_
    exact ⟨.free name hs hfind, by rw [nameIn, hs, Option.map_some]⟩

end ScriptPress
