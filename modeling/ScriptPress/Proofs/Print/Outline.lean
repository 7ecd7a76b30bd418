import ScriptPress.Proofs.Print.Lines

/-! # How a printed text is put together -/

namespace ScriptPress

open List Piece

open Fragment (ofPieces keyword braced block)

/-- A character that a word or the flags of a regular expression may go on with. -/
def Text.isWordChar (c : Char) : Bool := isIdentifierPart c || 0x80 ≤ c.toNat

namespace Piece

def delimits : Piece → Bool
  | text s | between s _ => s.toList.head?.any fun c => !Text.isWordChar c
  | _ => false

def divides (p : Piece) : Bool := p.delimits || p = word "in" || p = word "instanceof"

def isFixed : Piece → Bool
  | regExp _ | terminator | pending | dropPending => false
  | _ => true

theorem isFixed_of_divides {p : Piece} (h : p.divides) : p.isFixed := by
  cases p <;> first | rfl | cases h

end Piece

namespace Style

variable {st : Style} {l : Level}

theorem isFixed_number : ∀ p ∈ st.number l x, p.isFixed := by
  simp only [number]
  repeat' split
  all_goals simp [isFixed]

theorem isFixed_boolean {b : Bool} : ∀ p ∈ st.boolean l b, p.isFixed := by
  simp only [boolean, wrapped]
  repeat' split
  all_goals simp [isFixed]

end Style

theorem Style.divides_binaryOperator (op : BinaryOp) : (binaryOperator op).divides := by
  cases op <;> decide

theorem divides_assign (op : AssignOp) : (between op.text none).divides := by
  cases op <;> decide

inductive Written (name : SymbolId → String) : (Mode → List Piece) → List String → Prop
  | nil : Written name (fun _ => []) []
  | number (l : Level) (x : Float) : Written name (fun mode => Style.number ⟨mode, name⟩ l x) []
  | boolean (l : Level) (b : Bool) : Written name (fun mode => Style.boolean ⟨mode, name⟩ l b) []
  | regExp (s : String) : Written name (fun _ => [.regExp s]) [s]
  | cons {p : Piece} {F : Mode → List Piece} {rs : List String} (hp : p.isFixed)
    (h : Written name F rs) : Written name (fun mode => p :: F mode) rs
  | space {F : Mode → List Piece} {rs : List String} (h : Written name F rs) :
    Written name (fun mode => F mode ++ [.space]) rs
  | divided {p : Piece} {F G : Mode → List Piece} {rs rs' : List String} (h : Written name F rs)
    (hp : p.divides) (h' : Written name G rs') :
    Written name (fun mode => F mode ++ p :: G mode) (rs ++ rs')

/-! ## Expressions -/

variable {name : SymbolId → String} {F G : Mode → List Piece} {rs rs' : List String}

namespace Written

theorem congr (h : Written name F rs) (hF : ∀ mode, G mode = F mode) (hrs : rs' = rs) :
    Written name G rs' := by
  obtain rfl : G = F := funext hF
  exact hrs ▸ h

theorem single (p : Piece) (hp : p.isFixed) : Written name (fun _ => [p]) [] := .cons hp .nil

theorem closed (h : Written name F rs) (p : Piece) (hp : p.divides) :
    Written name (fun mode => F mode ++ [p]) rs :=
  (h.divided hp .nil).congr (fun _ => rfl) (append_nil rs).symm

theorem wrapped (h : Written name F rs) (wrap : Bool) :
    Written name (fun mode => wrapped wrap (F mode)) rs := by
  cases wrap with
  | true => exact (h.closed (.text ")") (by decide)).cons (p := .text "(") rfl
  | false => exact h

theorem operation {p : Piece} (h : Written name F rs) (hp : p.divides)
    (h' : Written name G rs') :
    Written name (fun mode => operation (F mode) p (G mode)) (rs ++ rs') :=
  (h.space.divided hp (h'.cons (p := .space) rfl)).congr (by simp [Piece.operation]) rfl

end Written

structure Listed (name : SymbolId → String) (first : Bool) (F : Mode → List Piece)
    (rs : List String) : Prop where
  written : Written name F rs
  empty : first = true → F = (fun _ => []) ∧ rs = []

namespace Listed

theorem nil : Listed name true (fun _ => []) [] := ⟨.nil, fun _ => ⟨rfl, rfl⟩⟩

theorem some (h : Written name F rs) : Listed name false F rs := ⟨h, nofun⟩

theorem item {first : Bool} (h : Listed name first F rs) (h' : Written name G rs') :
    Listed name false (fun mode => F mode ++ (separatorUnless first ++ G mode)) (rs ++ rs') := by
  cases first with
  | true =>
    obtain ⟨rfl, rfl⟩ := h.empty rfl
    exact some h'
  | false =>
    exact some (h.written.divided (p := .text ",") (by decide) (h'.cons (p := .space) rfl))

end Listed

namespace Tree

variable {α : Type} {t : Tree α} {cs vs : List (Tree α)} {first inSetup : Bool} {place : Place}

mutual

/-- The regular expressions of a tree, in the order of the text. What stands behind the body of a
function are its parameters, which are printed as names. -/
def regExps : Tree α → List String
  | node _ (.regExp source) _ => [source]
  | node _ (.function _) (b :: _) => b.regExps
  | node _ _ cs => regExpsAll cs

def regExpsAll : List (Tree α) → List String
  | [] => []
  | c :: cs => c.regExps ++ regExpsAll cs

end

theorem IsExpression.regExps_of_isUndefined (h : t.IsExpression) (ht : t.isUndefined) :
    t.regExps = [] := by
  cases h with
  | undefined => simp [regExps, regExpsAll]
  | _ => cases ht

theorem written_listSpelling
    (hcs : ∀ c ∈ cs, Written name (fun mode => c.spelling ⟨mode, name⟩ place) c.regExps)
    (h : Listed name first F rs) :
    Written name (fun mode => F mode ++ listSpelling ⟨mode, name⟩ place first cs)
      (rs ++ regExpsAll cs) := by
  induction cs generalizing first F rs with
  | nil => exact h.written.congr (by simp [listSpelling]) (by simp [regExpsAll])
  | cons c cs ih =>
    obtain ⟨hc, hcs⟩ := forall_mem_cons.mp hcs
    exact (@ih _ _ false hcs (h.item hc)).congr (by simp [listSpelling]) (by simp [regExpsAll])

theorem written_elementSpelling (hexpression : ∀ c ∈ cs, c.IsExpression)
    (hcs : ∀ c ∈ cs, Written name
      (fun mode => c.spelling ⟨mode, name⟩ (place.operand .comma)) c.regExps)
    (h : Listed name first F rs) :
    Written name (fun mode => F mode ++ elementSpelling ⟨mode, name⟩ place first cs)
      (rs ++ regExpsAll cs) := by
  induction cs generalizing first F rs with
  | nil => exact h.written.congr (by simp [elementSpelling]) (by simp [regExpsAll])
  | cons c cs ih =>
    obtain ⟨hc, hcs⟩ := forall_mem_cons.mp hcs
    obtain ⟨he, hexpression⟩ := forall_mem_cons.mp hexpression
    cases hundefined : c.isUndefined with
    | false =>
      exact (@ih _ _ false hexpression hcs (h.item hc)).congr
        (by simp [elementSpelling, hundefined]) (by simp [regExpsAll])
    | true =>
      have hcomma : Written name (fun mode => F mode ++ ((if first then [] else [.text ","]) ++
          if cs.isEmpty then [.text ","] else [])) rs := by
        cases first <;> cases cs
        · exact ((h.written.closed (.text ",") (by decide)).closed (.text ",") (by decide)).congr
            (by simp) rfl
        · exact h.written.closed (.text ",") (by decide)
        · exact h.written.closed (.text ",") (by decide)
        · exact h.written.congr (by simp) rfl
      exact (@ih _ _ false hexpression hcs (.some hcomma)).congr
        (by simp [elementSpelling, hundefined])
        (by simp [regExpsAll, he.regExps_of_isUndefined hundefined])

theorem written_propertySpelling {qs : List (α × SymbolId × Tree α)}
    (hqs : ∀ q ∈ qs, Written name
      (fun mode => q.2.2.spelling ⟨mode, name⟩ (place.operand .comma)) q.2.2.regExps)
    (h : Listed name first F rs) :
    Written name (fun mode => F mode ++ propertySpelling ⟨mode, name⟩ place first
        (qs.map fun q => node q.1 (.property q.2.1) [q.2.2]))
      (rs ++ regExpsAll (qs.map fun q => node q.1 (.property q.2.1) [q.2.2])) := by
  induction qs generalizing first F rs with
  | nil => exact h.written.congr (by simp [propertySpelling]) (by simp [regExpsAll])
  | cons q qs ih =>
    obtain ⟨hq, hqs⟩ := forall_mem_cons.mp hqs
    have hproperty := ((hq.cons (p := .space) rfl).cons (p := .text ":") rfl).cons
      (p := Style.key (name q.2.1)) rfl
    exact (@ih _ _ false hqs (h.item hproperty)).congr
      (by simp [propertySpelling]) (by simp [regExps, regExpsAll])

theorem written_spelling (h : t.IsExpression) : ∀ place,
    Written name (fun mode => t.spelling ⟨mode, name⟩ place) t.regExps := by
  induction h with
  | array hcs ih =>
    intro place
    simp only [spelling, regExps]
    exact ((written_elementSpelling hcs (fun c hc => ih c hc _) .nil).cons rfl).closed _ (by decide)
  | call _ _ ih ihs =>
    intro place
    simp only [spelling, regExps, regExpsAll]
    exact ((ih _).divided (by decide) (written_listSpelling (fun c hc => ihs c hc _)
      .nil)).closed _ (by decide)
  | @new _ c cs _ _ ih ihs =>
    intro place
    have hcallee : Written name (fun mode => if c.hasCall then
        wrapped true (c.spelling ⟨mode, name⟩ (place.operand .lowest))
        else c.spelling ⟨mode, name⟩ (place.operand .member)) c.regExps := by
      split
      · exact (ih _).wrapped true
      · exact ih _
    simp only [spelling, regExps, regExpsAll]
    exact (((hcallee.cons rfl).cons rfl).divided (by decide)
      (written_listSpelling (fun c hc => ihs c hc _) .nil)).closed _ (by decide)
  | object _ ih =>
    intro place
    simp only [spelling, regExps]
    exact ((written_propertySpelling (fun q hq => ih q hq _) .nil).cons rfl).closed _ (by decide)
  | sequence _ ih =>
    intro place
    simp only [spelling, regExps]
    exact (written_listSpelling (fun c hc => ih c hc _) .nil).wrapped _
  | conditional _ _ _ iha ihb ihc =>
    intro place
    simp only [spelling, regExps, regExpsAll, append_nil]
    exact ((iha _).operation (by decide) ((ihb _).operation (by decide) (ihc _))).wrapped _
  | index _ _ iha ihb =>
    intro place
    simp only [spelling, regExps, regExpsAll, append_nil]
    exact ((iha _).divided (by decide) (ihb _)).closed _ (by decide)
  | binary _ _ iha ihb =>
    intro place
    simp only [spelling, regExps, regExpsAll, append_nil]
    exact ((iha _).operation (Style.divides_binaryOperator _) (ihb _)).wrapped _
  | assign _ _ iha ihb =>
    intro place
    simp only [spelling, regExps, regExpsAll, append_nil]
    exact ((iha _).operation (divides_assign _) (ihb _)).wrapped _
  | member _ ih =>
    intro place
    simp only [spelling, regExps, regExpsAll]
    exact (ih _).divided (by decide) (.single _ rfl)
  | @unary _ op _ _ ih =>
    intro place
    simp only [spelling, regExps, regExpsAll, append_nil]
    split
    · refine Written.wrapped ((ih _).closed _ ?_) _
      cases op <;> first | decide | contradiction
    · refine Written.wrapped ?_ _
      cases op <;> first | exact (ih _).cons rfl | exact ((ih _).cons rfl).cons rfl
  | undefined =>
    intro place
    simp only [spelling, regExps, regExpsAll, Style.undefined]
    split <;> exact .single _ rfl
  | _ =>
    intro place
    simp only [spelling, regExps, regExpsAll]
    first | exact .single _ rfl | exact .regExp _ | exact .number _ _ | exact .boolean _ _

/-! ## Parts of statements -/

theorem written_declarationSpelling (inSetup : Bool) (h : t.IsVariable) :
    Written name (fun mode => t.declarationSpelling ⟨mode, name⟩ inSetup) t.regExps := by
  obtain ⟨m, s, v, rfl, hv⟩ := h
  simp only [declarationSpelling, regExps, regExpsAll, append_nil]
  split
  · rename_i hundefined
    rw [hv.regExps_of_isUndefined hundefined]
    exact .single _ rfl
  · exact ((((written_spelling hv _).cons rfl).cons rfl).cons rfl).cons rfl

theorem written_declarationsSpelling (inSetup first : Bool) (hvs : ∀ v ∈ vs, v.IsVariable)
    (h : Listed name first F rs) :
    Written name (fun mode => F mode ++ declarationsSpelling ⟨mode, name⟩ inSetup first vs)
      (rs ++ regExpsAll vs) := by
  induction vs generalizing first F rs with
  | nil => exact h.written.congr (by simp [declarationsSpelling]) (by simp [regExpsAll])
  | cons v vs ih =>
    obtain ⟨hv, hvs⟩ := forall_mem_cons.mp hvs
    exact (ih false hvs (h.item (written_declarationSpelling inSetup hv))).congr
      (by simp [declarationsSpelling]) (by simp [regExpsAll])

theorem written_parameterSpelling (first : Bool) (hvs : ∀ v ∈ vs, v.IsVariable)
    (h : Listed name first F rs) :
    Written name (fun mode => F mode ++ parameterSpelling ⟨mode, name⟩ first vs) rs := by
  induction vs generalizing first F rs with
  | nil => exact h.written.congr (by simp [parameterSpelling]) rfl
  | cons v vs ih =>
    obtain ⟨hv, hrest⟩ := forall_mem_cons.mp hvs
    obtain ⟨m, s, e, rfl, -⟩ := hv
    exact (ih false hrest (h.item (.single (.word (name s)) rfl))).congr
      (by simp [parameterSpelling]) (by simp)

theorem written_clauseSpelling (h : t.IsClause) :
    Written name (fun mode => t.clauseSpelling ⟨mode, name⟩) t.regExps := by
  rcases h with h | ⟨m, rfl⟩
  · simp only [clauseSpelling, h.not_isEmpty]
    exact (written_spelling h _).cons rfl
  · exact Written.nil.congr (fun _ => rfl) (by simp [regExps, regExpsAll])

theorem written_setupSpelling (h : t.IsSetup) :
    Written name (fun mode => t.setupSpelling ⟨mode, name⟩) t.regExps := by
  rcases h with (h | ⟨m, rfl⟩) | ⟨m, vs, rfl, hvs⟩
  · refine (written_spelling h ⟨.lowest, true⟩).congr (fun mode => ?_) rfl
    cases h <;> rfl
  · exact Written.nil.congr (fun _ => rfl) (by simp [regExps, regExpsAll])
  · simp only [regExps]
    exact (written_declarationsSpelling true true hvs .nil).cons rfl

theorem written_headSpelling (h : t.IsHead) :
    Written name (fun mode => t.headSpelling ⟨mode, name⟩) t.regExps := by
  rcases h with h | h
  · refine (written_spelling h ⟨.update, true⟩).congr (fun mode => ?_) rfl
    cases h <;> rfl
  · refine ((written_declarationSpelling true h).cons (p := .text "var") rfl).congr
      (fun mode => ?_) rfl
    obtain ⟨m, s, v, rfl, -⟩ := h
    rfl

/-! ## Functions -/

def functions (t : Tree α) : List (Tree α) := t.subtrees.filter (·.kind.isFunction)

theorem functions_node {a : α} {k : Kind} : (node a k cs).functions =
    (if k.isFunction then [node a k cs] else []) ++ cs.flatMap functions := by
  rw [functions, subtrees, filter_cons, subtreesAll_eq, filter_flatMap, kind_node]
  cases k.isFunction <;> rfl

theorem functions_eq_nil (h : t.IsExpression) : t.functions = [] := by
  refine h.node_induction (P := fun t => t.functions = []) fun a k cs hk hcs => ?_
  have hfunction : k.isFunction = false := by
    rcases hk with hk | hk <;> cases k <;> first | rfl | cases hk
  simpa [functions_node, hfunction] using hcs

theorem functions_variable (h : t.IsVariable) : t.functions = [] := by
  obtain ⟨a, s, v, rfl, hv⟩ := h
  simp [functions_node, Kind.isFunction, functions_eq_nil hv]

theorem functions_variables (h : ∀ v ∈ vs, v.IsVariable) : vs.flatMap functions = [] :=
  flatMap_eq_nil_iff.mpr fun v hv => functions_variable (h v hv)

theorem functions_clause (h : t.IsClause) : t.functions = [] := by
  rcases h with h | ⟨a, rfl⟩
  · exact functions_eq_nil h
  · rfl

theorem functions_setup (h : t.IsSetup) : t.functions = [] := by
  rcases h with h | ⟨a, vs, rfl, hvs⟩
  · exact functions_clause h
  · simp [functions_node, Kind.isFunction, functions_variables hvs]

end Tree

/-! ## Statements -/

inductive Seam : List Fragment → Prop
  | pending : Seam [.piece .pending]
  | closed (depth : Nat) : Seam (ofPieces [.indent depth, .text "\x7d", .dropPending])
  | dropped (depth : Nat) : Seam (ofPieces [.dropPending, .indent depth, .text "\x7d"])

inductive Laid {α : Type} (name : SymbolId → String) :
    (Mode → List Fragment) → List String → List (Tree α) → Prop
  | nil : Laid name (fun _ => []) [] []
  | terminated {F : Mode → List Piece} {rs : List String} (h : Written name F rs) :
    Laid name (fun mode => ofPieces (F mode) ++ [.piece .terminator]) rs []
  | opening {F : Mode → List Piece} {rs : List String} (h : Written name F rs) :
    Laid name (fun mode => [.opening (F mode), .piece .terminator]) rs []
  | cons {p : Piece} {L : Mode → List Fragment} {rs : List String} {ts : List (Tree α)}
    (hp : p.isFixed) (h : Laid name L rs ts) :
    Laid name (fun mode => .piece p :: L mode) rs ts
  | headed {F : Mode → List Piece} {L : Mode → List Fragment} {rs rs' : List String}
    {ts : List (Tree α)} (h : Written name F rs) (p : Piece) (hp : p.divides)
    (h' : Laid name L rs' ts) :
    Laid name (fun mode => ofPieces (F mode) ++ .piece p :: L mode) (rs ++ rs') ts
  | append {seam : List Fragment} {L L' : Mode → List Fragment} {rs rs' : List String}
    {ts ts' : List (Tree α)} (hseam : Seam seam) (h : Laid name L rs ts)
    (h' : Laid name L' rs' ts') :
    Laid name (fun mode => L mode ++ seam ++ L' mode) (rs ++ rs') (ts ++ ts')
  | function {depth : Nat} {a a' : α} {s : SymbolId} {cs vs : List (Tree α)} {rs : List String}
    {ts : List (Tree α)} (hcs : ∀ c ∈ cs, c.IsStatement) (hvs : ∀ v ∈ vs, v.IsVariable)
    (hbody : Laid name (fun mode => Tree.listLines ⟨mode, name⟩ (depth + 1) cs) rs ts)
    (h : Laid name (fun mode =>
      (Tree.node a (.function s) (.node a' .block cs :: vs)).lines
        ⟨mode, name⟩ .line depth) rs ts) :
    Laid name (fun mode =>
      (Tree.node a (.function s) (.node a' .block cs :: vs)).lines ⟨mode, name⟩ .line depth) rs
      (.node a (.function s) (.node a' .block cs :: vs) :: ts)

namespace Laid

variable {α : Type} {L L' : Mode → List Fragment} {ts ts' : List (Tree α)}

theorem congr (h : Laid name L rs ts) (hL : ∀ mode, L' mode = L mode)
    (hparts : rs' = rs ∧ ts' = ts) : Laid name L' rs' ts' := by
  obtain rfl : L' = L := funext hL
  exact hparts.1 ▸ hparts.2 ▸ h

theorem behind (h : Laid name L rs ts) (ps : List Piece) (hps : ps.all isFixed) :
    Laid name (fun mode => ofPieces ps ++ L mode) rs ts := by
  induction ps with
  | nil => exact h
  | cons p ps ih =>
    obtain ⟨hp, hps⟩ := Bool.and_eq_true_iff.mp hps
    exact (ih hps).cons hp

end Laid

namespace Tree

variable {α : Type} {t a b : Tree α} {cs vs ts : List (Tree α)} {L : Mode → List Fragment}
  (depth : Nat)

attribute [local simp] regExps regExpsAll functions_node Kind.isFunction ofPieces lines keyword

def Lays (name : SymbolId → String) (t : Tree α) : Prop :=
  ∀ position depth,
    Laid name (fun mode => t.lines ⟨mode, name⟩ position depth) t.regExps t.functions

theorem laid_listLines (hcs : ∀ c ∈ cs, c.Lays name) (h : Laid name L rs ts) :
    Laid name (fun mode => L mode ++ listLines ⟨mode, name⟩ depth cs) (rs ++ regExpsAll cs)
      (ts ++ cs.flatMap functions) := by
  induction cs generalizing L rs ts with
  | nil => exact h.congr (by simp [listLines]) (by simp)
  | cons c cs ih =>
    obtain ⟨hc, hcs⟩ := forall_mem_cons.mp hcs
    exact (ih hcs (.append .pending h (hc .line depth))).congr (by simp [listLines]) (by simp)

theorem laid_block (hcs : ∀ c ∈ cs, c.Lays name) (h : Laid name L rs ts) :
    Laid name (fun mode => block depth (listLines ⟨mode, name⟩ (depth + 1) cs) ++ L mode)
      (regExpsAll cs ++ rs) (cs.flatMap functions ++ ts) :=
  ((Laid.append (.closed depth) (laid_listLines (depth + 1) hcs .nil) h).behind
    [.text "\x7b", .newline] rfl).congr (by simp [block, braced]) ⟨rfl, rfl⟩

theorem laid_testSpelling (ht : t.IsExpression) (h : Laid name L rs ts) :
    Laid name (fun mode => ofPieces (t.testSpelling ⟨mode, name⟩) ++ L mode) (t.regExps ++ rs) ts :=
  ((Laid.headed (written_spelling ht .lowest) (.text ")") (by decide) h).behind
    [.space, .text "("] rfl).congr (by simp [testSpelling]) ⟨rfl, rfl⟩

theorem laid_jump (word : String) (label : Option SymbolId) :
    Laid name (fun mode => jump ⟨mode, name⟩ depth word label) [] ([] : List (Tree α)) := by
  cases label with
  | none => exact (Laid.terminated .nil).behind [.indent depth, .word word] rfl
  | some s =>
    exact (Laid.terminated .nil).behind [.indent depth, .word word, .text " ", .text (name s)] rfl

theorem laid_value (word : String) (h : t.IsExpression) :
    Laid name (fun mode => keyword depth word ++ .piece .space ::
      ofPieces (t.spelling ⟨mode, name⟩ .lowest) ++ [.piece .terminator]) t.regExps
      ([] : List (Tree α)) :=
  (Laid.terminated (written_spelling h .lowest)).behind [.indent depth, .word word, .space] rfl

theorem laid_ifLines (ht : t.IsExpression) (hb : b.IsStatement) (hla : a.Lays name)
    (hlb : b.Lays name) : Laid name (fun mode => ifLines ⟨mode, name⟩ depth [t, a, b])
      (t.regExps ++ (a.regExps ++ b.regExps)) (a.functions ++ b.functions) := by
  have helse := (hlb .orElse depth).behind [.indent depth, .text "else"] rfl
  cases hempty : b.isEmpty with
  | true =>
    have hnone : b.regExps = [] ∧ b.functions = [] := by
      cases hb with
      | empty => exact ⟨by simp, rfl⟩
      | _ => cases hempty
    exact ((laid_testSpelling ht (hla .body depth)).behind [.word "if"] rfl).congr
      (by simp [ifLines, hempty]) (by simp [hnone])
  | false =>
    cases hopen : a.endsOpen with
    | true =>
      have hbehind := (Laid.append .pending .nil helse).behind [.newline] rfl
      have hbraced := (Laid.append (.dropped depth) (hla .line (depth + 1)) hbehind).behind
        [.space, .text "\x7b", .newline] rfl
      exact ((laid_testSpelling ht hbraced).behind [.word "if"] rfl).congr
        (by simp [ifLines, hempty, hopen, braced]) ⟨rfl, rfl⟩
    | false =>
      exact ((laid_testSpelling ht (.append .pending (hla .body depth) helse)).behind [.word "if"]
        rfl).congr (by simp [ifLines, hempty, hopen]) ⟨rfl, rfl⟩

theorem laid_handlerLines (m : α) {o : Option (SymbolId × α × List (Tree α))} (depth : Nat)
    (ho : ∀ p ∈ o, ∀ c ∈ p.2.2, c.Lays name) (h : Laid name L rs ts) :
    Laid name (fun mode => (handler m o).handlerLines ⟨mode, name⟩ depth ++ L mode)
      ((handler m o).regExps ++ rs) ((handler m o).functions ++ ts) := by
  rcases o with _ | ⟨s, m', cs⟩
  · exact h.congr (by simp [handler, handlerLines]) (by simp [handler])
  · exact ((laid_block depth (ho _ rfl) h).behind [.space, .text "catch", .space, .text "(",
      .text (name s), .text ")", .space] rfl).congr (by simp [handler, handlerLines])
        (by simp [handler])

theorem laid_finalizerLines (m : α) {o : Option (List (Tree α))} (depth : Nat)
    (ho : ∀ ds ∈ o, ∀ c ∈ ds, c.Lays name) (h : Laid name L rs ts) :
    Laid name (fun mode => (finalizer m o).finalizerLines ⟨mode, name⟩ depth ++ L mode)
      ((finalizer m o).regExps ++ rs) ((finalizer m o).functions ++ ts) := by
  rcases o with _ | cs
  · exact h.congr (by simp [finalizer, finalizerLines]) (by simp [finalizer])
  · exact ((laid_block depth (ho _ rfl) h).behind [.space, .text "finally", .space] rfl).congr
      (by simp [finalizer, finalizerLines])
      (by simp [finalizer])

theorem lays_placed {m : α} {k : Kind} (hk : k.isPlaced)
    (h : ∀ depth, Laid name (fun mode => (node m k cs).lines ⟨mode, name⟩ .line depth)
      (node m k cs).regExps (node m k cs).functions) : (node m k cs).Lays name := by
  intro position depth
  simp only [lines_placed hk position]
  split
  · exact h depth
  · exact (h (depth + 1)).cons rfl

theorem lays (h : t.IsStatement) : t.Lays name := by
  induction h with
  | block _ ih =>
    intro position depth
    have hblock := laid_block depth ih (.cons (p := .newline) rfl .nil)
    cases position with
    | line =>
      exact (hblock.behind [.indent depth] rfl).congr (by simp) (by simp)
    | body | orElse =>
      exact (hblock.behind [.space] rfl).congr (by simp) (by simp)
  | ifElse ht _ hb iha ihb =>
    intro position depth
    have hif := fun depth => laid_ifLines depth ht hb iha ihb
    cases position with
    | line =>
      exact ((hif depth).behind [.indent depth] rfl).congr (by simp) (by simp [functions_eq_nil ht])
    | body =>
      exact ((hif (depth + 1)).behind [.newline, .indent (depth + 1)] rfl).congr
        (by simp)
        (by simp [functions_eq_nil ht])
    | orElse =>
      exact ((hif depth).behind [.text " "] rfl).congr (by simp) (by simp [functions_eq_nil ht])
  | @«break» _ label | @«continue» _ label =>
    refine lays_placed rfl fun depth => ?_
    simp only [lines, regExps, regExpsAll]
    exact laid_jump depth _ label
  | debugger =>
    refine lays_placed rfl fun depth => ?_
    exact (laid_jump depth "debugger" none).congr (by simp [jump]) ⟨by simp, rfl⟩
  | @directive _ s =>
    refine lays_placed rfl fun depth => ?_
    exact ((Laid.terminated .nil).behind
      [.indent depth, .text (quoteOf s), .text s, .text (quoteOf s)] rfl).congr
        (by simp) ⟨by simp, rfl⟩
  | doWhile _ ht ih =>
    refine lays_placed rfl fun depth => ?_
    have htest := (laid_testSpelling ht (.terminated (.nil : Written name _ _))).behind
      [.indent depth, .text "while"] rfl
    exact ((Laid.append .pending (ih .body depth) htest).behind
      [.indent depth, .word "do"] rfl).congr
      (by simp)
      (by simp [functions_eq_nil ht])
  | empty =>
    refine lays_placed rfl fun depth => ?_
    exact (Laid.nil.behind [.indent depth, .text ";", .newline] rfl).congr (by simp) ⟨by simp, rfl⟩
  | expression he =>
    refine lays_placed rfl fun depth => ?_
    exact ((Laid.opening (written_spelling he .lowest)).behind [.indent depth] rfl).congr (by simp)
      (by simp [functions_eq_nil he])
  | forLoop hs ht hu _ ih =>
    refine lays_placed rfl fun depth => ?_
    have hclauses := Laid.headed (written_setupSpelling hs) (.text ";") (by decide)
      (.headed (written_clauseSpelling ht) (.text ";") (by decide)
        (.headed (written_clauseSpelling hu) (.text ")") (by decide) (ih .body depth)))
    exact (hclauses.behind [.indent depth, .word "for", .space, .text "("] rfl).congr (by simp)
      (by simp [functions_setup hs, functions_clause ht, functions_clause hu])
  | forIn hh hv _ ih =>
    refine lays_placed rfl fun depth => ?_
    have hvalue := (Laid.headed (written_spelling hv .lowest) (.text ")") (by decide)
      (ih .body depth)).behind [.space] rfl
    exact ((Laid.headed (written_headSpelling hh) (.word "in") (by decide) hvalue).behind
      [.indent depth, .word "for", .space, .text "("] rfl).congr (by simp)
        (by simp [hh.elim functions_eq_nil functions_variable, functions_eq_nil hv])
  | @function m m' s cs vs hcs hvs ih =>
    refine lays_placed rfl fun depth => ?_
    have hbody := laid_listLines (depth + 1) ih .nil
    have hblock := (laid_block depth ih (.cons (p := .newline) rfl .nil)).behind [.space] rfl
    have hlines := (Laid.headed (written_parameterSpelling true hvs .nil)
      (.text ")") (by decide) hblock).behind
        [.indent depth, .word "function ", .text (name s), .text "("] rfl
    have hparts : (node m (.function s) (node m' .block cs :: vs)).functions =
        node m (.function s) (node m' .block cs :: vs) :: cs.flatMap functions := by
      simp [functions_variables hvs]
    have hsources : (node m (.function s) (node m' .block cs :: vs)).regExps = regExpsAll cs := by
      simp
    rw [hparts, hsources]
    exact .function hcs hvs hbody (hlines.congr (by simp) (by simp))
  | @label _ s _ _ ih =>
    refine lays_placed rfl fun depth => ?_
    exact ((ih .line depth).behind [.indent (depth - 1), .word (name s), .text ":", .newline]
      rfl).congr (by simp) (by simp)
  | @«return» _ e he =>
    refine lays_placed rfl fun depth => ?_
    cases hundefined : e.isUndefined with
    | true =>
      exact (laid_jump depth "return" none).congr (by simp [jump, hundefined])
        (by simp [he.regExps_of_isUndefined hundefined, functions_eq_nil he])
    | false =>
      exact (laid_value depth "return" he).congr (by simp [hundefined])
        (by simp [functions_eq_nil he])
  | throw he =>
    refine lays_placed rfl fun depth => ?_
    exact (laid_value depth "throw" he).congr (by simp) (by simp [functions_eq_nil he])
  | @«try» _ _ mh mf _ _ _ _ _ _ ih ihh ihf =>
    refine lays_placed rfl fun depth => ?_
    exact ((laid_block depth ih (laid_handlerLines mh depth ihh (laid_finalizerLines mf depth ihf
      (.cons (p := .newline) rfl .nil)))).behind [.indent depth, .word "try", .space] rfl).congr
        (by simp)
        (by simp)
  | varStatement hvs =>
    refine lays_placed rfl fun depth => ?_
    exact ((Laid.terminated (written_declarationsSpelling false true hvs .nil)).behind
      [.indent depth, .word "var "] rfl).congr (by simp) (by simp [functions_variables hvs])
  | whileLoop ht _ ih =>
    refine lays_placed rfl fun depth => ?_
    exact ((laid_testSpelling ht (ih .body depth)).behind [.indent depth, .word "while"] rfl).congr
      (by simp)
      (by simp [functions_eq_nil ht])

theorem laid_statements (h : ∀ c ∈ cs, c.IsStatement) :
    Laid name (fun mode => listLines ⟨mode, name⟩ depth cs) (regExpsAll cs)
      (cs.flatMap functions) :=
  laid_listLines depth (fun c hc => lays (h c hc)) .nil

end Tree

end ScriptPress
