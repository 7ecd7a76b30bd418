import ScriptPress.Proofs.Store.Edit
import ScriptPress.Store.Build

/-! # Constructors keep a forest -/

namespace ScriptPress

open Store (Has)

/-- A call of a constructor that takes other nodes. -/
inductive Construction where
  | expression (value : NodeId)
  | declarator (symbol : SymbolId) (value : NodeId)
  | function (symbol : SymbolId) (body : NodeId) (parameters : List NodeId)
  | forLoop (setup test update body : NodeId)
  | forIn (setup value body : NodeId)
  | property (key : SymbolId) (value : NodeId)
  | returning (value : Option NodeId)
  | throwing (value : NodeId)
  | ifElse (test whenTrue : NodeId) (whenFalse : Option NodeId)
  | doWhile (body test : NodeId)
  | label (symbol : SymbolId) (body : NodeId)
  | whileLoop (test body : NodeId)
  | tryCatch (block : NodeId) (handler finalizer : Option NodeId)
  | catching (symbol : SymbolId) (body : NodeId)
  | call (target : NodeId) (arguments : List NodeId)
  | new (target : NodeId) (arguments : List NodeId)
  | member (object : NodeId) (property : SymbolId)
  | index (target property : NodeId)
  | conditional (test whenTrue whenFalse : NodeId)
  | sequence (values : List NodeId)
  | unary (op : UnaryOp) (value : NodeId)
  | binary (op : BinaryOp) (left right : NodeId)
  | assign (op : AssignOp) (target value : NodeId)
  | array (elements : List NodeId)
  | object (properties : List NodeId)

namespace Construction

def nodes : Construction → List NodeId
  | expression v | declarator _ v | property _ v | throwing v | label _ v | catching _ v
  | member v _ | unary _ v => [v]
  | function _ v vs | call v vs | new v vs => v :: vs
  | forLoop a b c d => [a, b, c, d]
  | forIn a b c | conditional a b c => [a, b, c]
  | returning v => v.toList
  | ifElse a b c => a :: b :: c.toList
  | doWhile a b | whileLoop a b | index a b | binary _ a b | assign _ a b => [a, b]
  | tryCatch a b c => a :: (b.toList ++ c.toList)
  | sequence vs | array vs | object vs => vs

def action : Construction → Building NodeId
  | expression v => .expression v
  | declarator s v => .declarator s v
  | function s b ps => .function s b ps
  | forLoop a t u b => .forLoop a t u b
  | forIn a v b => .forIn a v b
  | property s v => .property s v
  | returning v => .returning v
  | throwing v => .throwing v
  | ifElse t x y => .ifElse t x y
  | doWhile b t => .doWhile b t
  | label s b => .label s b
  | whileLoop t b => .whileLoop t b
  | tryCatch b h f => .tryCatch b h f
  | catching s b => .catching s b
  | call f vs => .call f vs
  | new f vs => .new f vs
  | member v s => .member v s
  | index v p => .index v p
  | conditional t x y => .conditional t x y
  | sequence vs => .sequence vs
  | unary op v => .unary op v
  | binary op x y => .binary op x y
  | assign op x y => .assign op x y
  | array vs => .array vs
  | object vs => .object vs

end Construction

namespace Building

variable {α β : Type} {s : Store} {x : Building α} (role : String)

def Keeps (x : Building α) (s : Store) (promise : α → Store → Prop) : Prop :=
  ∀ a s', x.run s = .ok (a, s') → s'.Consistent ∧ s.size ≤ s'.size ∧ promise a s'

theorem run_bind_eq_ok {f : α → Building β} {b : β} {s' : Store}
    (h : (x >>= f).run s = .ok (b, s')) :
    ∃ a s₁, x.run s = .ok (a, s₁) ∧ (f a).run s₁ = .ok (b, s') := by
  rw [StateT.run_bind] at h
  cases hx : x.run s with
  | error e =>
    rw [hx] at h
    cases h
  | ok r =>
    rw [hx] at h
    exact ⟨r.1, r.2, rfl, h⟩

theorem Keeps.bind {f : α → Building β} {P : α → Store → Prop} {Q : β → Store → Prop}
    (hx : Keeps x s P) (hf : ∀ a s', s'.Consistent → s.size ≤ s'.size → P a s' → Keeps (f a) s' Q) :
    Keeps (x >>= f) s Q := by
  intro b s' h
  obtain ⟨a, s₁, h₁, h₂⟩ := run_bind_eq_ok h
  obtain ⟨hs₁, hsize₁, hP⟩ := hx a s₁ h₁
  obtain ⟨hs', hsize', hQ⟩ := hf a s₁ hs₁ hsize₁ hP b s' h₂
  exact ⟨hs', Nat.le_trans hsize₁ hsize', hQ⟩

theorem keeps_create (h : s.Consistent) (k : Kind) : Keeps (create k) s fun n s' => s'.Has n := by
  intro n s' hr
  cases hr
  refine ⟨h.create k, ?_, ?_⟩
  · show s.size ≤ (s.create k).2.size
    rw [Store.size_create]
    exact Nat.le_succ _
  · show s.size < (s.create k).2.size
    rw [Store.size_create]
    exact Nat.lt_succ_self _

theorem keeps_append (h : s.Consistent) {p c : NodeId} (hp : s.Has p) (hc : s.Has c) :
    Keeps (append p c) s fun _ _ => True := by
  intro u s' hr
  change ((s.append p c >>= fun s₁ => Except.ok (s₁, s)) >>= fun r => Except.ok ((), r.1)) =
    .ok (u, s') at hr
  cases hi : s.append p c with
  | error e =>
    rw [hi] at hr
    cases hr
  | ok s₁ =>
    rw [hi] at hr
    cases hr
    obtain ⟨hs', hsize⟩ := h.insert hp hc hi
    exact ⟨hs', Nat.le_of_eq hsize.symm, trivial⟩

theorem keeps_withChildren (h : s.Consistent) (k : Kind) {cs : List NodeId}
    (hcs : ∀ c ∈ cs, s.Has c) : Keeps (withChildren k cs) s fun _ _ => True := by
  refine (keeps_create h k).bind fun n s₁ hs₁ hsize₁ hn => ?_
  have hall : ∀ s₁ : Store, s₁.Consistent → s₁.Has n → (∀ c ∈ cs, s₁.Has c) →
      Keeps (cs.forM (append n)) s₁ fun _ _ => True := by
    clear hcs
    induction cs with
    | nil =>
      intro s₁ hs₁ _ _ u s' hr
      cases hr
      exact ⟨hs₁, Nat.le_refl _, trivial⟩
    | cons c cs ih =>
      intro s₁ hs₁ hn hcs
      rw [List.forall_mem_cons] at hcs
      refine (keeps_append hs₁ hn hcs.1).bind fun _ s₂ hs₂ hsize₂ _ => ?_
      exact ih s₂ hs₂ (hn.mono hsize₂) fun c hc => (hcs.2 c hc).mono hsize₂
  refine (hall s₁ hs₁ hn fun c hc => (hcs c hc).mono hsize₁).bind fun _ s₂ hs₂ _ _ => ?_
  intro a s' hr
  cases hr
  exact ⟨hs₂, Nat.le_refl _, trivial⟩

def Checks (x : Building α) : Prop :=
  ∀ s a s', x.run s = .ok (a, s') → s' = s

theorem Checks.andThen {y : Building β} {Q : β → Store → Prop} (hx : Checks x) (hy : Keeps y s Q) :
    Keeps (x >>= fun _ => y) s Q := by
  intro b s' h
  obtain ⟨a, s₁, h₁, h₂⟩ := run_bind_eq_ok h
  obtain rfl := hx s a s₁ h₁
  exact hy b s' h₂

theorem checks_lift (x : Kind → Except Fault Unit) (n : NodeId) :
    Checks (kindOf n >>= fun k => liftM (x k)) := by
  intro s a s' h
  change (x (s.kind n) >>= fun a => Except.ok (a, s)) = .ok (a, s') at h
  cases hx : x (s.kind n) with
  | error e =>
    rw [hx] at h
    cases h
  | ok u =>
    rw [hx] at h
    cases h
    rfl

theorem checks_expression (n : NodeId) : Checks (expectExpression role n) :=
  checks_lift (Kind.expectExpression role) n

theorem checks_statement (n : NodeId) : Checks (expectStatement role n) :=
  checks_lift (Kind.expectStatement role) n

theorem checks_kind (ok : Kind → Bool) (n : NodeId) : Checks (expectKind role ok n) :=
  checks_lift (fun k => k.expectKind role (ok k)) n

theorem checks_forM {check : NodeId → Building Unit} (h : ∀ n, Checks (check n)) :
    ∀ ns : List NodeId, Checks (ns.forM check)
  | [] => by
    intro s a s' hr
    cases hr
    rfl
  | n :: ns => by
    intro s a s' hr
    obtain ⟨b, s₁, h₁, h₂⟩ := run_bind_eq_ok hr
    obtain rfl := h n s b s₁ h₁
    exact checks_forM h ns _ a s' h₂

theorem keeps_orLeaf (h : s.Consistent) (k : Kind) {o : Option NodeId}
    (ho : ∀ n ∈ o.toList, s.Has n) : Keeps (orLeaf k o) s fun n s' => s'.Has n := by
  cases o with
  | none => exact keeps_create h k
  | some n =>
    intro a s' hr
    cases hr
    exact ⟨h, Nat.le_refl _, ho n (by simp)⟩

theorem keeps_clause (h : s.Consistent) (role : String) (ok : Kind → Bool) {o : Option NodeId}
    (ho : ∀ n ∈ o.toList, s.Has n) : Keeps (clause role ok o) s fun n s' => s'.Has n := by
  cases o with
  | none => exact keeps_create h .empty
  | some n =>
    refine (checks_kind role ok n).andThen fun a s' hr => ?_
    cases hr
    exact ⟨h, Nat.le_refl _, ho n (by simp)⟩

theorem keeps_construction (c : Construction) (h : s.Consistent) (hc : ∀ n ∈ c.nodes, s.Has n) :
    Keeps c.action s fun _ _ => True := by
  cases c with
  | expression v | declarator _ v | property _ v | throwing v | member v _ | unary _ v =>
    exact (checks_expression _ v).andThen (keeps_withChildren h _ hc)
  | label _ b => exact (checks_statement _ b).andThen (keeps_withChildren h _ hc)
  | catching _ b => exact (checks_kind _ _ b).andThen (keeps_withChildren h _ hc)
  | function _ b ps =>
    exact (checks_kind _ _ b).andThen ((checks_forM (checks_kind _ _) ps).andThen
      (keeps_withChildren h _ hc))
  | forLoop a t u b =>
    exact (checks_kind _ _ a).andThen ((checks_kind _ _ t).andThen ((checks_kind _ _ u).andThen
      ((checks_statement _ b).andThen (keeps_withChildren h _ hc))))
  | forIn a v b =>
    exact (checks_kind _ _ a).andThen ((checks_expression _ v).andThen
      ((checks_statement _ b).andThen (keeps_withChildren h _ hc)))
  | doWhile b t =>
    exact (checks_statement _ b).andThen ((checks_expression _ t).andThen
      (keeps_withChildren h _ hc))
  | whileLoop t b =>
    exact (checks_expression _ t).andThen ((checks_statement _ b).andThen
      (keeps_withChildren h _ hc))
  | index x y | binary _ x y | assign _ x y =>
    exact (checks_expression _ x).andThen ((checks_expression _ y).andThen
      (keeps_withChildren h _ hc))
  | conditional t x y =>
    exact (checks_expression _ t).andThen ((checks_expression _ x).andThen
      ((checks_expression _ y).andThen (keeps_withChildren h _ hc)))
  | call f vs | new f vs =>
    exact (checks_expression _ f).andThen ((checks_forM (checks_expression _) vs).andThen
      (keeps_withChildren h _ hc))
  | sequence vs | array vs =>
    exact (checks_forM (checks_expression _) vs).andThen (keeps_withChildren h _ hc)
  | object vs => exact (checks_forM (checks_kind _ _) vs).andThen (keeps_withChildren h _ hc)
  | returning v =>
    refine (keeps_orLeaf h .undefined hc).bind fun n s' hs' _ hn => ?_
    exact (checks_expression _ n).andThen (keeps_withChildren hs' _ (by simpa using hn))
  | ifElse t x y =>
    simp only [Construction.nodes, List.forall_mem_cons] at hc
    refine (keeps_orLeaf h .empty hc.2.2).bind fun n s' hs' hsize hn => ?_
    have hall : ∀ c ∈ [t, x, n], s'.Has c := by
      simpa using ⟨hc.1.mono hsize, hc.2.1.mono hsize, hn⟩
    exact (checks_expression _ t).andThen ((checks_statement _ x).andThen
      ((checks_statement _ n).andThen (keeps_withChildren hs' _ hall)))
  | tryCatch b g f =>
    simp only [Construction.nodes, List.forall_mem_cons, List.forall_mem_append] at hc
    refine (checks_kind _ _ b).andThen ?_
    refine (keeps_clause h _ _ hc.2.1).bind fun n s₁ hs₁ hsize₁ hn => ?_
    refine (keeps_clause hs₁ _ _ fun m hm => (hc.2.2 m hm).mono hsize₁).bind
      fun m s₂ hs₂ hsize₂ hm => ?_
    have hall : ∀ c ∈ [b, n, m], s₂.Has c := by
      simpa using ⟨(hc.1.mono hsize₁).mono hsize₂, hn.mono hsize₂, hm⟩
    exact keeps_withChildren hs₂ _ hall

end Building

end ScriptPress
