import ScriptPress.Print.Statement
import ScriptPress.Proofs.Tree.Form

/-! # Printing without faults -/

namespace ScriptPress

open List Piece

open Fragment (ofPieces keyword braced block)

namespace Tree

variable {α : Type}

/-- Whether a `new` before the expression would hand its arguments to a call inside it. -/
def hasCall : Tree α → Bool
  | node _ .call _ => true
  | node _ (.member _) (c :: _) | node _ .index (c :: _) => c.hasCall
  | _ => false

mutual

def spelling (st : Style) (p : Place) : Tree α → List Piece
  | node _ kind cs =>
    match kind, cs with
    | .array, cs => .text "[" :: elementSpelling st p true cs ++ [.text "]"]
    | .boolean b, _ => st.boolean p.level b
    | .call, c :: cs =>
      spelling st (p.operand .update) c ++ .text "(" ::
        listSpelling st (p.operand .comma) true cs ++ [.text ")"]
    | .conditional, [a, b, c] =>
      wrapped (p.level.wraps .conditional)
        (operation (spelling st (p.operand .conditional) a) (.text "?")
          (operation (spelling st (p.operand Level.conditional.looser) b) (.text ":")
            (spelling st (p.operand Level.conditional.looser) c)))
    | .identifier s, _ => [.word (st.name s)]
    | .index, [a, b] =>
      spelling st (p.operand .member) a ++ .text "[" :: spelling st (p.operand .lowest) b ++
        [.text "]"]
    | .member s, [a] => spelling st (p.operand .member) a ++ [.text ".", .text (st.name s)]
    | .new, c :: cs =>
      [.word "new", .space] ++
        (if c.hasCall then wrapped true (spelling st (p.operand .lowest) c)
          else spelling st (p.operand .member) c) ++
        .text "(" :: listSpelling st (p.operand .comma) true cs ++ [.text ")"]
    | .null, _ => [.word "null"]
    | .number x, _ => st.number p.level x
    | .object, cs => .text "\x7b" :: propertySpelling st p true cs ++ [.text "\x7d"]
    | .regExp source, _ => [.regExp source]
    | .sequence, cs =>
      wrapped (p.level.wraps .comma) (listSpelling st (p.operand .comma) true cs)
    | .string s, _ => [.text (Text.quoted s)]
    | .this, _ => [.word "this"]
    | .undefined, _ => Style.undefined p.level
    | .unary op, [a] =>
      if op.isTrailing then
        wrapped (p.level.wraps .update)
          (spelling st (p.operand Level.update.looser) a ++ [.text op.text])
      else
        wrapped (p.level.wraps .unary)
          (Style.unaryOperator op ++ spelling st (p.operand Level.unary.looser) a)
    | .binary op, [a, b] =>
      wrapped (p.level.wraps (Level.ofBinary op) || (op == .in && p.inSetup))
        (operation (spelling st (p.operand (Level.ofBinary op).looser) a)
          (Style.binaryOperator op) (spelling st (p.operand (Level.ofBinary op)) b))
    | .assign op, [a, b] =>
      wrapped (p.level.wraps .assign)
        (operation (spelling st (p.operand .assign) a) (.between op.text none)
          (spelling st (p.operand Level.assign.looser) b))
    | _, _ => []

def listSpelling (st : Style) (p : Place) (first : Bool) : List (Tree α) → List Piece
  | [] => []
  | c :: cs => separatorUnless first ++ spelling st p c ++ listSpelling st p false cs

def elementSpelling (st : Style) (p : Place) (first : Bool) : List (Tree α) → List Piece
  | [] => []
  | c :: cs =>
    (if c.isUndefined then
      (if first then [] else [.text ","]) ++ (if cs.isEmpty then [.text ","] else [])
    else separatorUnless first ++ spelling st (p.operand .comma) c) ++
      elementSpelling st p false cs

def propertySpelling (st : Style) (p : Place) (first : Bool) : List (Tree α) → List Piece
  | [] => []
  | node _ (.property s) [v] :: cs =>
    separatorUnless first ++
      ([Style.key (st.name s), .text ":", .space] ++ spelling st (p.operand .comma) v) ++
      propertySpelling st p false cs
  | _ :: cs => propertySpelling st p false cs

end

variable {st : Style} {p : Place} {first : Bool} {t : Tree α} {cs : List (Tree α)}

theorem hasCallInChain_eq (h : t.IsExpression) : t.hasCallInChain = .ok t.hasCall := by
  induction h with
  | index _ _ ih | member _ ih =>
    rw [hasCallInChain, hasCall]
    exact ih
  | _ => rw [hasCallInChain, hasCall] <;> nofun

theorem listPieces_eq (h : ∀ c ∈ cs, c.pieces st p = .ok (c.spelling st p)) :
    listPieces st p first cs = .ok (listSpelling st p first cs) := by
  induction cs generalizing first with
  | nil => rw [listPieces, listSpelling]
  | cons c cs ih =>
    rw [listPieces, listSpelling, h c mem_cons_self, ih fun d hd => h d (.tail _ hd)]
    rfl

theorem elementPieces_eq
    (h : ∀ c ∈ cs, c.pieces st (p.operand .comma) = .ok (c.spelling st (p.operand .comma))) :
    elementPieces st p first cs = .ok (elementSpelling st p first cs) := by
  induction cs generalizing first with
  | nil => rw [elementPieces, elementSpelling]
  | cons c cs ih =>
    rw [elementPieces, elementSpelling, h c mem_cons_self, ih fun d hd => h d (.tail _ hd)]
    split <;> rfl

theorem propertiesPieces_eq {ps : List (α × SymbolId × Tree α)}
    (h : ∀ q ∈ ps, q.2.2.pieces st (p.operand .comma) =
      .ok (q.2.2.spelling st (p.operand .comma))) :
    propertiesPieces st p first (ps.map fun q => node q.1 (.property q.2.1) [q.2.2]) =
      .ok (propertySpelling st p first (ps.map fun q => node q.1 (.property q.2.1) [q.2.2])) := by
  induction ps generalizing first with
  | nil => rw [map_nil, propertiesPieces, propertySpelling]
  | cons q ps ih =>
    have hq : (node q.1 (.property q.2.1) [q.2.2]).propertyPieces st p =
        .ok ([Style.key (st.name q.2.1), .text ":", .space] ++
          q.2.2.spelling st (p.operand .comma)) := by
      rw [propertyPieces, piecesAt, h q mem_cons_self]
      rfl
    rw [map_cons, propertiesPieces, propertySpelling, hq, ih fun d hd => h d (.tail _ hd)]
    rfl

theorem pieces_eq (h : t.IsExpression) : ∀ p, t.pieces st p = .ok (t.spelling st p) := by
  induction h with
  | array _ ih =>
    intro p
    rw [pieces, spelling, elementPieces_eq fun c hc => ih c hc _]
    rfl
  | call _ _ ih ihs =>
    intro p
    rw [pieces, spelling, piecesAt, ih, argumentPieces, listPieces_eq fun c hc => ihs c hc _]
    rfl
  | conditional _ _ _ iha ihb ihc =>
    intro p
    rw [pieces, spelling]
    simp only [piecesAt, iha, ihb, ihc]
    rfl
  | index _ _ iha ihb | binary _ _ iha ihb | assign _ _ iha ihb =>
    intro p
    rw [pieces, spelling]
    simp only [piecesAt, iha, ihb]
    rfl
  | member _ ih =>
    intro p
    rw [pieces, spelling, piecesAt, ih]
    rfl
  | new hc _ ih ihs =>
    intro p
    rw [pieces, spelling, calleePieces, hasCallInChain_eq hc, ih, ih, argumentPieces,
      listPieces_eq fun c hc => ihs c hc _]
    split <;> rename_i hcall <;> simp [bind, Except.bind, pure, Except.pure, hcall]
  | object _ ih =>
    intro p
    rw [pieces, spelling, propertiesPieces_eq fun q hq => ih q hq _]
    rfl
  | sequence _ ih =>
    intro p
    rw [pieces, spelling, listPieces_eq fun c hc => ih c hc _]
    rfl
  | @unary m op a _ ih =>
    intro p
    rw [pieces, spelling]
    simp only [piecesAt, ih]
    split <;> rfl
  | _ =>
    intro p
    rw [pieces, spelling]

end Tree

end ScriptPress
