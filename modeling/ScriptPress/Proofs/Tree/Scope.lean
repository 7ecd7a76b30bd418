import ScriptPress.Estree.Scope
import ScriptPress.Proofs.Usage.Scan

/-! # Scopes of a tree -/

namespace ScriptPress

open List

def nameIn (table : Array Symbol) (s : SymbolId) : Option String :=
  table[s.index]?.map Symbol.name

namespace Kind

/-- The symbol that a declaration binds in the function around it. -/
def hoists? : Kind → Option SymbolId
  | .variable s | .function s => some s
  | _ => none

def introduces? : Kind → Option SymbolId
  | .variable s | .function s | .catch s => some s
  | _ => none

def isNeutral : Kind → Bool
  | .variable _ | .function _ | .catch _ | .identifier _ => false
  | _ => true

end Kind

namespace Frame

def find? (frames : List Frame) (name : String) : Option SymbolId :=
  frames.findSome? (·.lookup name)

/-- The symbols in a frame have the names they are bound to, and none is pinned. -/
def Sound (table : Array Symbol) (frame : Frame) : Prop :=
  ∀ name s, frame.lookup name = some s → table[s.index]? = some ⟨name, false⟩

structure Binds (table : Array Symbol) (frame : Frame) (xs : List SymbolId) : Prop where
  sound : frame.Sound table
  names : ∀ name, (frame.lookup name).isSome ↔ some name ∈ xs.map (nameIn table)

inductive Resolves (table : Array Symbol) (frames : List Frame) (s : SymbolId) : Prop
  | bound (name : String) (hs : table[s.index]? = some ⟨name, false⟩)
    (hfind : find? frames name = some s)
  | free (name : String) (hs : table[s.index]? = some ⟨name, true⟩)
    (hfind : find? frames name = none)

end Frame

namespace Tree

variable {α β : Type} {cs : List (Tree α)} {k : Kind} {m : α}

mutual

/-- The symbols that the declarations in a tree bind in the function around it. -/
def bindings : Tree α → List SymbolId
  | node _ k cs =>
    match k.hoists? with
    | some s => [s]
    | none => bindingsAll cs

def bindingsAll : List (Tree α) → List SymbolId
  | [] => []
  | c :: cs => bindings c ++ bindingsAll cs

end

def ownBindings (t : Tree α) : List SymbolId :=
  match t.kind with
  | .function _ => t.children.flatMap bindings
  | .catch s => [s]
  | _ => []

inductive Scoped (table : Array Symbol) (known : WellKnown) : List Frame → Tree α → Prop
  | identifier {frames m s} (hs : Frame.Resolves table frames s) :
    Scoped table known frames (node m (.identifier s) [])
  | power {frames m a b l r} (hl : Scoped table known frames l)
      (hr : Scoped table known frames r) : Scoped table known frames
      (node m .call [node a (.member known.pow) [node b (.identifier known.math) []], l, r])
  | declaration {frames m s v} (hs : Frame.Resolves table frames s)
      (hv : Scoped table known frames v) : Scoped table known frames (node m (.variable s) [v])
  | function {frames m s cs} (frame : Frame) (hs : Frame.Resolves table frames s)
      (hframe : frame.Binds table (cs.flatMap bindings))
      (hcs : ∀ c ∈ cs, Scoped table known (frame :: frames) c) :
    Scoped table known frames (node m (.function s) cs)
  | handler {frames m s cs} (name : String) (hs : table[s.index]? = some ⟨name, false⟩)
      (hcs : ∀ c ∈ cs, Scoped table known ([(name, s)] :: frames) c) :
    Scoped table known frames (node m (.catch s) cs)
  | neutral {frames m k cs} (hk : k.isNeutral)
      (hcs : ∀ c ∈ cs, Scoped table known frames c) : Scoped table known frames (node m k cs)

theorem bindings_of_hoists {s : SymbolId} (hk : k.hoists? = some s) :
    (node m k cs).bindings = [s] := by
  rw [bindings, hk]

theorem bindings_node (hk : k.hoists? = none) : (node m k cs).bindings = cs.flatMap bindings := by
  have hall : ∀ cs : List (Tree α), bindingsAll cs = cs.flatMap bindings := by
    intro cs
    induction cs with
    | nil => rw [bindingsAll, flatMap_nil]
    | cons c cs ih => rw [bindingsAll, ih, flatMap_cons]
  rw [bindings, hk, hall]

theorem bindings_map (f : α → β) (t : Tree α) : (t.map f).bindings = t.bindings := by
  induction t with
  | node m k cs ih =>
    rw [map_node]
    cases hk : k.hoists? with
    | none =>
      rw [bindings_node hk, bindings_node hk, flatMap_map]
      exact flatMap_congr ih
    | some s => rw [bindings_of_hoists hk, bindings_of_hoists hk]

theorem bindings_eq_nil (hk : k.hoists? = none) (hcs : ∀ c ∈ cs, c.bindings = []) :
    (node m k cs).bindings = [] := by
  rw [bindings_node hk, flatMap_eq_nil_iff]
  exact hcs

theorem IsExpression.bindings_eq {t : Tree α} (h : t.IsExpression) : t.bindings = [] := by
  refine h.node_induction fun m k cs hk => bindings_eq_nil ?_
  rcases hk with hk | hk <;> cases k <;> first | rfl | cases hk

end Tree

/-! ## Names inside of frames -/

namespace Frame

variable {table : Array Symbol} {frame : Frame} {frames : List Frame} {name : String}
  {s x : SymbolId}

theorem find_cons : find? (frame :: frames) name = (frame.lookup name).or (find? frames name) := by
  rw [find?, List.findSome?_cons]
  cases frame.lookup name <;> rfl

theorem lookup_singleton (other : String) :
    List.lookup other [(name, s)] = if other = name then some s else none := by
  by_cases h : other = name
  · rw [h, lookup_cons_self, if_pos rfl]
  · rw [lookup_cons, beq_eq_false_iff_ne.mpr h, if_neg h]
    rfl

theorem Binds.handler (hs : table[s.index]? = some ⟨name, false⟩) :
    Binds table [(name, s)] [s] := by
  have hname : nameIn table s = some name := by rw [nameIn, hs, Option.map_some]
  constructor
  · intro other x hx
    rw [lookup_singleton] at hx
    split at hx
    · rename_i heq
      cases hx
      rw [heq, hs]
    · cases hx
  · intro other
    rw [lookup_singleton, map_singleton, hname, mem_singleton, Option.some.injEq]
    split <;> simp_all

theorem Resolves.of_handler (h : Resolves table ([(name, s)] :: frames) x) :
    x = s ∨ Resolves table frames x := by
  rcases h with ⟨other, hx, hfind⟩ | ⟨other, hx, hfind⟩
  · rw [find_cons, lookup_singleton] at hfind
    split at hfind
    · cases hfind
      exact .inl rfl
    · exact .inr (.bound other hx hfind)
  · rw [find_cons, Option.or_eq_none_iff] at hfind
    exact .inr (.free other hx hfind.2)

theorem Resolves.lookup_eq_none (h : Resolves table frames s)
    (hs : table[s.index]? = some ⟨name, true⟩) (hframe : frame ∈ frames) :
    frame.lookup name = none := by
  rcases h with ⟨name', hs', -⟩ | ⟨name', hs', hfind⟩
  · rw [hs] at hs'
    cases hs'
  · rw [hs] at hs'
    cases hs'
    exact List.findSome?_eq_none_iff.mp hfind frame hframe

theorem Resolves.nameIn_ne {xs : List SymbolId} (h : Resolves table frames s)
    (hs : table[s.index]? = some ⟨name, true⟩) (hframe : frame ∈ frames)
    (hbinds : frame.Binds table xs) (hx : x ∈ xs) : nameIn table x ≠ some name := by
  intro hname
  have hsome := (hbinds.names name).mpr (hname ▸ mem_map_of_mem hx)
  rw [h.lookup_eq_none hs hframe] at hsome
  cases hsome

end Frame

namespace Tree

variable {α : Type} {table : Array Symbol} {known : WellKnown} {frames : List Frame} {t : Tree α}

/-! ## Capture -/

/-- A node that stands for a power of two values, and the `Math` in it. -/
def IsPower (known : WellKnown) (u i : Tree α) : Prop :=
  i.kind = .identifier known.math ∧
    ∃ m a l r, u = node m .call [node a (.member known.pow) [i], l, r]

def Placed (table : Array Symbol) (known : WellKnown) (frames : List Frame) (t u : Tree α) : Prop :=
  (∃ inner, Scoped table known (inner ++ frames) u) ∨ u.kind = .member known.pow ∨
    ∃ p ∈ t.subtrees, IsPower known p u

theorem Placed.of_child (added : List Frame) {m : α} {k : Kind} {cs : List (Tree α)}
    {c u : Tree α} (hc : c ∈ cs) (h : Placed table known (added ++ frames) c u) :
    Placed table known frames (node m k cs) u := by
  rcases h with ⟨inner, h⟩ | h | ⟨p, hp, h⟩
  · rw [← append_assoc] at h
    exact .inl ⟨_, h⟩
  · exact .inr (.inl h)
  · exact .inr (.inr ⟨p, mem_subtrees_node.mpr (.inr ⟨c, hc, hp⟩), h⟩)

theorem Scoped.placed {u : Tree α} (h : Scoped table known frames t) (hu : u ∈ t.subtrees) :
    Placed table known frames t u := by
  induction h with
  | identifier hs =>
    rcases mem_subtrees_node.mp hu with rfl | ⟨c, hc, -⟩
    · exact .inl ⟨[], .identifier hs⟩
    · cases hc
  | @power frames m a b l r hl hr ihl ihr =>
    rcases mem_subtrees_node.mp hu with rfl | ⟨c, hc, huc⟩
    · exact .inl ⟨[], .power hl hr⟩
    · simp only [mem_cons, not_mem_nil, or_false] at hc
      rcases hc with rfl | rfl | rfl
      · rcases mem_subtrees_node.mp huc with rfl | ⟨i, hi, hui⟩
        · exact .inr (.inl rfl)
        · obtain rfl := mem_singleton.mp hi
          rcases mem_subtrees_node.mp hui with rfl | ⟨c, hc, -⟩
          · exact .inr (.inr ⟨_, mem_subtrees_self _, rfl, m, a, l, r, rfl⟩)
          · cases hc
      · exact .of_child [] (by simp) (ihl huc)
      · exact .of_child [] (by simp) (ihr huc)
  | declaration hs hv ih =>
    rcases mem_subtrees_node.mp hu with rfl | ⟨c, hc, huc⟩
    · exact .inl ⟨[], .declaration hs hv⟩
    · obtain rfl := mem_singleton.mp hc
      exact .of_child [] hc (ih huc)
  | function frame hs hframe hcs ih =>
    rcases mem_subtrees_node.mp hu with rfl | ⟨c, hc, hu⟩
    · exact .inl ⟨[], .function frame hs hframe hcs⟩
    · exact .of_child [frame] hc (ih c hc hu)
  | @handler frames m s cs name hs hcs ih =>
    rcases mem_subtrees_node.mp hu with rfl | ⟨c, hc, hu⟩
    · exact .inl ⟨[], .handler name hs hcs⟩
    · exact .of_child [[(name, s)]] hc (ih c hc hu)
  | neutral hk hcs ih =>
    rcases mem_subtrees_node.mp hu with rfl | ⟨c, hc, hu⟩
    · exact .inl ⟨[], .neutral hk hcs⟩
    · exact .of_child [] hc (ih c hc hu)

theorem Scoped.resolves {i : Tree α} {s : SymbolId} (h : Scoped table known frames t)
    (hi : i ∈ t.subtrees) (hs : i.kind = .identifier s) :
    (∃ inner, Frame.Resolves table (inner ++ frames) s) ∨ ∃ p ∈ t.subtrees, IsPower known p i := by
  rcases h.placed hi with ⟨inner, h⟩ | h | h
  · cases h with
    | identifier h =>
      cases hs
      exact .inl ⟨inner, h⟩
    | neutral hk _ =>
      rw [kind_node] at hs
      rw [hs] at hk
      cases hk
    | _ => cases hs
  · rw [h] at hs
    cases hs
  · exact .inr h

theorem Scoped.opened {x : SymbolId} (h : Scoped table known frames t) (hx : x ∈ t.ownBindings) :
    ∃ frame : Frame, frame.Binds table t.ownBindings ∧
      ∀ c ∈ t.children, Scoped table known (frame :: frames) c := by
  cases h with
  | function frame _ hframe hcs => exact ⟨frame, hframe, hcs⟩
  | handler name hs hcs => exact ⟨_, .handler hs, hcs⟩
  | @neutral _ m k cs hk _ => cases k <;> first | cases hx; done | cases hk
  | _ => cases hx

theorem Scoped.nameIn_ne_of_pinned {i f : Tree α} {s x : SymbolId} {name : String}
    (h : Scoped table known frames t) (hs : i.kind = .identifier s)
    (hpinned : table[s.index]? = some ⟨name, true⟩)
    (hpower : ∀ p ∈ t.subtrees, ¬IsPower known p i) (hf : f ∈ t.subtrees) (hi : i ∈ f.subtrees)
    (hx : x ∈ f.ownBindings) : nameIn table x ≠ some name := by
  -- Neither a name nor the function of a power binds anything.
  have hmember : f.kind ≠ .member known.pow := by
    intro hk
    rw [ownBindings, hk] at hx
    cases hx
  have hidentifier : ∀ y, f.kind ≠ .identifier y := by
    intro y hk
    rw [ownBindings, hk] at hx
    cases hx
  rcases h.placed hf with ⟨inner, hscoped⟩ | hk | ⟨p, -, hk, -⟩
  · obtain ⟨frame, hbinds, hcs⟩ := hscoped.opened hx
    obtain ⟨m, k, cs⟩ := f
    rcases mem_subtrees_node.mp hi with rfl | ⟨c, hc, hic⟩
    · exact absurd hs (hidentifier s)
    · rcases (hcs c hc).resolves hic hs with ⟨inner', hres⟩ | ⟨p, hp, hip⟩
      · exact hres.nameIn_ne hpinned (by simp) hbinds hx
      · refine absurd hip (hpower p (subtrees_trans ?_ hf))
        exact mem_subtrees_node.mpr (.inr ⟨c, hc, hp⟩)
  · exact absurd hk hmember
  · exact absurd hk (hidentifier _)

/-! ## Declarations -/

def Declares (t : Tree α) (s : SymbolId) : Prop :=
  ∃ d ∈ t.subtrees, d.kind.introduces? = some s

/-- A handler in the tree binds the symbol, and a declaration inside of the handler carries it. -/
def Rebinds (t : Tree α) (x : SymbolId) : Prop :=
  ∃ c ∈ t.subtrees, c.kind = .catch x ∧ x ∈ c.bindings

/-- A declaration in the trees has the name of `s`, but carries the symbol of a handler around
it. -/
def Diverts (table : Array Symbol) (cs : List (Tree α)) (s : SymbolId) : Prop :=
  ∃ c ∈ cs, ∃ x ∈ c.bindings, c.Rebinds x ∧ nameIn table x = nameIn table s

def AccountsFor (table : Array Symbol) (t i : Tree α) (s : SymbolId) : Prop :=
  t.Declares s ∨ ∃ f ∈ t.subtrees, (∃ y, f.kind = .function y) ∧ i ∈ f.subtrees ∧
    Diverts table f.children s

section

variable {m : α} {k : Kind} {cs : List (Tree α)} {c i : Tree α} {s x : SymbolId} {name : String}

theorem Declares.of_child (h : c.Declares s) (hc : c ∈ cs) : (node m k cs).Declares s := by
  obtain ⟨d, hd, hk⟩ := h
  exact ⟨d, mem_subtrees_node.mpr (.inr ⟨c, hc, hd⟩), hk⟩

theorem Rebinds.of_child (h : c.Rebinds x) (hc : c ∈ cs) : (node m k cs).Rebinds x := by
  obtain ⟨d, hd, hspec⟩ := h
  exact ⟨d, mem_subtrees_node.mpr (.inr ⟨c, hc, hd⟩), hspec⟩

theorem AccountsFor.of_child (h : c.AccountsFor table i s) (hc : c ∈ cs) :
    (node m k cs).AccountsFor table i s := by
  rcases h with h | ⟨f, hf, hspec⟩
  · exact .inl (h.of_child hc)
  · exact .inr ⟨f, mem_subtrees_node.mpr (.inr ⟨c, hc, hf⟩), hspec⟩

theorem declares_of_mem_bindings (h : x ∈ t.bindings) : t.Declares x := by
  induction t with
  | node m k cs ih =>
    cases hk : k.hoists? with
    | none =>
      rw [bindings_node hk] at h
      obtain ⟨c, hc, hx⟩ := mem_flatMap.mp h
      exact (ih c hc hx).of_child hc
    | some s =>
      rw [bindings_of_hoists hk, mem_singleton] at h
      subst h
      refine ⟨_, mem_subtrees_self _, ?_⟩
      cases k <;> cases hk <;> rfl

theorem Scoped.of_mem_bindings (h : Scoped table known frames t) (hx : x ∈ t.bindings) :
    Frame.Resolves table frames x ∨ t.Rebinds x := by
  induction h with
  | identifier _ =>
    rw [bindings_eq_nil rfl (by simp)] at hx
    cases hx
  | @power frames m a b l r _ _ ihl ihr =>
    rw [bindings_node rfl, flatMap_cons, flatMap_cons, flatMap_cons,
      flatMap_nil, append_nil, mem_append, mem_append] at hx
    rcases hx with hx | hx | hx
    · cases hx
    · exact (ihl hx).imp_right fun h => h.of_child (by simp)
    · exact (ihr hx).imp_right fun h => h.of_child (by simp)
  | declaration hs _ _ =>
    rw [bindings_of_hoists rfl, mem_singleton] at hx
    exact .inl (hx ▸ hs)
  | function _ hs _ _ _ =>
    rw [bindings_of_hoists rfl, mem_singleton] at hx
    exact .inl (hx ▸ hs)
  | @handler frames m s cs name hs _ ih =>
    obtain ⟨c, hc, hxc⟩ := mem_flatMap.mp (bindings_node (k := .catch s) rfl ▸ hx)
    rcases ih c hc hxc with hres | hrebinds
    · rcases hres.of_handler with rfl | hres
      · exact .inr ⟨_, mem_subtrees_self _, rfl, hx⟩
      · exact .inl hres
    · exact .inr (hrebinds.of_child hc)
  | @neutral frames m k cs hk _ ih =>
    have hnone : k.hoists? = none := by cases k <;> first | rfl | cases hk
    obtain ⟨c, hc, hxc⟩ := mem_flatMap.mp (bindings_node hnone ▸ hx)
    exact (ih c hc hxc).imp_right fun h => h.of_child hc

theorem Scoped.declares_or_diverts {frame : Frame}
    (hframe : frame.Binds table (cs.flatMap bindings))
    (hcs : ∀ c ∈ cs, Scoped table known (frame :: frames) c) (hs : frame.lookup name = some s) :
    (∃ c ∈ cs, c.Declares s) ∨ Diverts table cs s := by
  have hfind : Frame.find? (frame :: frames) name = some s := by
    rw [Frame.find_cons, hs, Option.some_or]
  have hsame : nameIn table s = some name := by
    rw [nameIn, hframe.sound name s hs, Option.map_some]
  obtain ⟨x, hx, hname⟩ := mem_map.mp ((hframe.names name).mp (by rw [hs]; rfl))
  obtain ⟨c, hc, hxc⟩ := mem_flatMap.mp hx
  rcases (hcs c hc).of_mem_bindings hxc with hres | hrebinds
  · have hxs : x = s := by
      rcases hres with ⟨other, hother, hx⟩ | ⟨other, hother, hx⟩
      all_goals
        rw [nameIn, hother, Option.map_some, Option.some.injEq] at hname
        subst hname
        rw [hx] at hfind
        cases hfind
      rfl
    exact .inl ⟨c, hc, declares_of_mem_bindings (hxs ▸ hxc)⟩
  · exact .inr ⟨c, hc, x, hxc, hrebinds, hname.trans hsame.symm⟩

theorem Scoped.accountsFor (h : Scoped table known frames t) (hi : i ∈ t.subtrees)
    (hk : i.kind = .identifier s) (hs : table[s.index]? = some ⟨name, false⟩)
    (hmath : ∀ other, table[known.math.index]? ≠ some ⟨other, false⟩) :
    Frame.find? frames name = some s ∨ t.AccountsFor table i s := by
  induction h with
  | @identifier frames m y hy =>
    rcases mem_subtrees_node.mp hi with rfl | ⟨c, hc, -⟩
    · cases hk
      rcases hy with ⟨other, hother, hfind⟩ | ⟨other, hother, -⟩
      · rw [hs] at hother
        cases hother
        exact .inl hfind
      · rw [hs] at hother
        cases hother
    · cases hc
  | @power frames m a b l r _ _ ihl ihr =>
    simp only [mem_subtrees_node, mem_cons, not_mem_nil, or_false, exists_eq_or_imp,
      exists_eq_left, false_and, exists_false] at hi
    rcases hi with rfl | (rfl | rfl) | hi | hi
    · cases hk
    · cases hk
    · cases hk
      exact absurd hs (hmath name)
    · exact (ihl hi).imp_right fun h => h.of_child (by simp)
    · exact (ihr hi).imp_right fun h => h.of_child (by simp)
  | @declaration frames m y v _ _ ih =>
    rcases mem_subtrees_node.mp hi with rfl | ⟨c, hc, hic⟩
    · cases hk
    · obtain rfl := mem_singleton.mp hc
      exact (ih hic).imp_right fun h => h.of_child hc
  | @function frames m y cs frame _ hframe hcs ih =>
    rcases mem_subtrees_node.mp hi with rfl | ⟨c, hc, hic⟩
    · cases hk
    · rcases ih c hc hic with hfind | h
      · rw [Frame.find_cons] at hfind
        cases hlookup : frame.lookup name with
        | none =>
          rw [hlookup] at hfind
          exact .inl hfind
        | some x =>
          rw [hlookup] at hfind
          cases hfind
          rcases Scoped.declares_or_diverts hframe hcs hlookup with ⟨d, hd, h⟩ | h
          · exact .inr (.inl (h.of_child hd))
          · exact .inr (.inr ⟨_, mem_subtrees_self _, ⟨y, rfl⟩, hi, h⟩)
      · exact .inr (h.of_child hc)
  | @handler frames m y cs other _ _ ih =>
    rcases mem_subtrees_node.mp hi with rfl | ⟨c, hc, hic⟩
    · cases hk
    · rcases ih c hc hic with hfind | h
      · rw [Frame.find_cons, Frame.lookup_singleton] at hfind
        split at hfind
        · cases hfind
          exact .inr (.inl ⟨_, mem_subtrees_self _, rfl⟩)
        · exact .inl hfind
      · exact .inr (h.of_child hc)
  | @neutral frames m k cs hneutral _ ih =>
    rcases mem_subtrees_node.mp hi with rfl | ⟨c, hc, hic⟩
    · rw [kind_node] at hk
      rw [hk] at hneutral
      cases hneutral
    · exact (ih c hc hic).imp_right fun h => h.of_child hc

end

/-! ## Marks -/

theorem Scoped.of_map {β : Type} {f : α → β} (h : Scoped table known frames (t.map f)) :
    Scoped table known frames t := by
  generalize hu : t.map f = u at h
  induction h generalizing t with
  | identifier hs =>
    obtain ⟨m, k, cs⟩ := t
    rw [map_node, node.injEq, map_eq_nil_iff] at hu
    obtain ⟨-, rfl, rfl⟩ := hu
    exact .identifier hs
  | @power frames m a b l r _ _ ihl ihr =>
    obtain ⟨m, k, cs⟩ := t
    rw [map_node, node.injEq] at hu
    obtain ⟨-, rfl, hcs⟩ := hu
    simp only [map_eq_cons_iff, map_eq_nil_iff] at hcs
    obtain ⟨⟨a, k, is⟩, _, rfl, hmember, l, _, rfl, hl, r, _, rfl, hr, rfl⟩ := hcs
    rw [map_node, node.injEq, map_eq_singleton_iff] at hmember
    obtain ⟨-, rfl, ⟨b, k, cs⟩, rfl, hmath⟩ := hmember
    rw [map_node, node.injEq, map_eq_nil_iff] at hmath
    obtain ⟨-, rfl, rfl⟩ := hmath
    exact .power (ihl hl) (ihr hr)
  | declaration hs hv ih =>
    obtain ⟨m, k, cs⟩ := t
    rw [map_node, node.injEq, map_eq_singleton_iff] at hu
    obtain ⟨-, rfl, v, rfl, hv⟩ := hu
    exact .declaration hs (ih hv)
  | function frame hs hframe _ ih =>
    obtain ⟨m, k, cs⟩ := t
    rw [map_node, node.injEq] at hu
    obtain ⟨-, rfl, rfl⟩ := hu
    refine .function frame hs ?_ fun c hc => ih _ (mem_map_of_mem hc) rfl
    rwa [flatMap_map, flatMap_congr fun c _ => bindings_map f c] at hframe
  | handler name hs _ ih =>
    obtain ⟨m, k, cs⟩ := t
    rw [map_node, node.injEq] at hu
    obtain ⟨-, rfl, rfl⟩ := hu
    exact .handler name hs fun c hc => ih _ (mem_map_of_mem hc) rfl
  | neutral hk _ ih =>
    obtain ⟨m, k, cs⟩ := t
    rw [map_node, node.injEq] at hu
    obtain ⟨-, rfl, rfl⟩ := hu
    exact .neutral hk fun c hc => ih _ (mem_map_of_mem hc) rfl

end Tree

end ScriptPress
