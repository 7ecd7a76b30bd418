import ScriptPress.Proofs.Marks.Tree
import ScriptPress.Proofs.Meaning.Core
import ScriptPress.Proofs.Print.Lines

/-! # Printing and marks -/

namespace ScriptPress

open List

open Fragment (ofPieces keyword braced block)

namespace Tree

variable {α β : Type} (f : α → β) {st : Style} {p : Place} {first inSetup : Bool} {t : Tree α}
  {cs : List (Tree α)} {depth : Nat}

theorem hasCall_map (h : t.IsExpression) : (t.map f).hasCall = t.hasCall := by
  induction h with
  | index _ _ ih | member _ ih =>
    rw [map_node, map_cons, hasCall, hasCall]
    exact ih
  | _ =>
    rw [map_node, hasCall, hasCall] <;> simp

theorem listSpelling_map (h : ∀ c ∈ cs, (c.map f).spelling st p = c.spelling st p) :
    listSpelling st p first (cs.map (map f)) = listSpelling st p first cs := by
  induction cs generalizing first with
  | nil => rfl
  | cons c cs ih =>
    rw [map_cons, listSpelling, listSpelling, h c mem_cons_self, ih fun d hd => h d (.tail _ hd)]

theorem elementSpelling_map
    (h : ∀ c ∈ cs, (c.map f).spelling st (p.operand .comma) = c.spelling st (p.operand .comma)) :
    elementSpelling st p first (cs.map (map f)) = elementSpelling st p first cs := by
  induction cs generalizing first with
  | nil => rfl
  | cons c cs ih =>
    have hempty : (cs.map (map f)).isEmpty = cs.isEmpty := by
      cases cs <;> rfl
    rw [map_cons, elementSpelling, elementSpelling, h c mem_cons_self, isUndefined_map,
      hempty, ih fun d hd => h d (.tail _ hd)]

theorem propertySpelling_map {ps : List (α × SymbolId × Tree α)}
    (h : ∀ q ∈ ps,
      (q.2.2.map f).spelling st (p.operand .comma) = q.2.2.spelling st (p.operand .comma)) :
    propertySpelling st p first
        ((ps.map fun q => node q.1 (.property q.2.1) [q.2.2]).map (map f)) =
      propertySpelling st p first (ps.map fun q => node q.1 (.property q.2.1) [q.2.2]) := by
  induction ps generalizing first with
  | nil => rfl
  | cons q ps ih =>
    rw [map_cons, map_cons, map_node, map_singleton, propertySpelling,
      propertySpelling, h q (.head _), ih fun d hd => h d (.tail _ hd)]

theorem spelling_map (h : t.IsExpression) : ∀ p, (t.map f).spelling st p = t.spelling st p := by
  induction h with
  | array _ ih =>
    intro p
    rw [map_node, spelling, spelling, elementSpelling_map f fun c hc => ih c hc _]
  | call _ _ ih ihs =>
    intro p
    rw [map_node, map_cons, spelling, spelling, ih, listSpelling_map f fun c hc => ihs c hc _]
  | conditional _ _ _ iha ihb ihc =>
    intro p
    simp only [map_node, map_cons, map_nil, spelling, iha, ihb, ihc]
  | index _ _ iha ihb | binary _ _ iha ihb | assign _ _ iha ihb =>
    intro p
    simp only [map_node, map_cons, map_nil, spelling, iha, ihb]
  | member _ ih | unary _ ih =>
    intro p
    simp only [map_node, map_cons, map_nil, spelling, ih]
  | new hc _ ih ihs =>
    intro p
    rw [map_node, map_cons, spelling, spelling, ih, ih, hasCall_map f hc,
      listSpelling_map f fun c hc => ihs c hc _]
  | object _ ih =>
    intro p
    rw [map_node, spelling, spelling, propertySpelling_map f fun q hq => ih q hq _]
  | sequence _ ih =>
    intro p
    rw [map_node, spelling, spelling, listSpelling_map f fun c hc => ih c hc _]
  | _ =>
    intro p
    simp only [map_node, map_nil, spelling]

theorem declarationSpelling_map (h : t.IsVariable) :
    (t.map f).declarationSpelling st inSetup = t.declarationSpelling st inSetup := by
  obtain ⟨m, s, v, rfl, hv⟩ := h
  rw [map_node, map_singleton, declarationSpelling, declarationSpelling, isUndefined_map,
    spelling_map f hv]

theorem declarationsSpelling_map (h : ∀ v ∈ cs, v.IsVariable) :
    declarationsSpelling st inSetup first (cs.map (map f)) =
      declarationsSpelling st inSetup first cs := by
  induction cs generalizing first with
  | nil => rfl
  | cons v vs ih =>
    rw [map_cons, declarationsSpelling, declarationsSpelling,
      declarationSpelling_map f (h v (.head _)), ih fun w hw => h w (.tail _ hw)]

theorem setupSpelling_map (h : t.IsSetup) : (t.map f).setupSpelling st = t.setupSpelling st := by
  rcases h with (h | ⟨m, rfl⟩) | ⟨m, vs, rfl, hvs⟩
  · have hk := h.isExpression
    rw [setupSpelling, setupSpelling, kind_map, spelling_map f h]
    cases hkind : t.kind <;> first | rfl | rw [hkind] at hk; cases hk
  · rfl
  · simp only [setupSpelling, map_node, kind_node, children_node, declarationsSpelling_map f hvs]

theorem clauseSpelling_map (h : t.IsClause) :
    (t.map f).clauseSpelling st = t.clauseSpelling st := by
  rcases h with h | ⟨m, rfl⟩
  · rw [clauseSpelling, clauseSpelling, isEmpty_map, spelling_map f h]
  · rfl

theorem headSpelling_map (h : t.IsHead) : (t.map f).headSpelling st = t.headSpelling st := by
  rw [headSpelling, headSpelling, kind_map]
  rcases h with h | h
  · have hk : t.kind.isVariable = false := by cases h <;> rfl
    rw [hk, spelling_map f h]
    rfl
  · have hk : t.kind.isVariable := by
      obtain ⟨m, s, v, rfl, -⟩ := h
      rfl
    rw [hk, declarationSpelling_map f h]
    rfl

theorem parameterSpelling_map (h : ∀ v ∈ cs, v.IsVariable) :
    parameterSpelling st first (cs.map (map f)) = parameterSpelling st first cs := by
  induction cs generalizing first with
  | nil => rfl
  | cons v vs ih =>
    have hvs := fun first => @ih first fun w hw => h w (.tail _ hw)
    obtain ⟨m, s, v, rfl, -⟩ := h v (.head _)
    rw [map_cons, map_node, parameterSpelling, parameterSpelling, hvs]

theorem testSpelling_map (h : t.IsExpression) : (t.map f).testSpelling st = t.testSpelling st := by
  rw [testSpelling, testSpelling, spelling_map f h]

theorem endsOpen_map (h : t.IsStatement) : (t.map f).endsOpen = t.endsOpen := by
  induction h with
  | forLoop _ _ _ _ ih | forIn _ _ _ ih | label _ ih | whileLoop _ _ ih =>
    simp only [map_node, map_cons, map_nil, endsOpen, ih]
  | ifElse _ _ _ _ ih =>
    simp only [map_node, map_cons, map_nil, endsOpen, isEmpty_map, ih]
  | _ =>
    rw [map_node, endsOpen, endsOpen] <;> simp

theorem listLines_map
    (h : ∀ c ∈ cs, ∀ depth, (c.map f).lines st .line depth = c.lines st .line depth) :
    listLines st depth (cs.map (map f)) = listLines st depth cs := by
  induction cs with
  | nil => rfl
  | cons c cs ih =>
    rw [map_cons, listLines, listLines, h c mem_cons_self, ih fun d hd => h d (.tail _ hd)]

theorem handlerLines_map {m : α} {o : Option (SymbolId × α × List (Tree α))}
    (h : ∀ q ∈ o, ∀ c ∈ q.2.2, ∀ depth, (c.map f).lines st .line depth = c.lines st .line depth) :
    ((handler m o).map f).handlerLines st depth = (handler m o).handlerLines st depth := by
  rcases o with _ | ⟨s, m', cs⟩
  · rfl
  · simp only [handler, map_node, map_cons, map_nil, handlerLines, listLines_map f (h _ rfl)]

theorem finalizerLines_map {m : α} {o : Option (List (Tree α))}
    (h : ∀ ds ∈ o, ∀ c ∈ ds, ∀ depth, (c.map f).lines st .line depth = c.lines st .line depth) :
    ((finalizer m o).map f).finalizerLines st depth = (finalizer m o).finalizerLines st depth := by
  rcases o with _ | cs
  · rfl
  · simp only [finalizer, map_node, finalizerLines, listLines_map f (h _ rfl)]

theorem lines_map (h : t.IsStatement) :
    ∀ position depth, (t.map f).lines st position depth = t.lines st position depth := by
  induction h with
  | block _ ih =>
    intro position depth
    simp only [map_node, lines, listLines_map f fun c hc => ih c hc .line]
    cases position <;> rfl
  | doWhile _ ht ih | whileLoop ht _ ih =>
    intro position depth
    simp only [map_node, map_cons, map_nil, lines, ih, testSpelling_map f ht]
    cases position <;> rfl
  | expression he | throw he =>
    intro position depth
    simp only [map_node, map_cons, map_nil, lines, spelling_map f he]
    cases position <;> rfl
  | forLoop hs ht hu _ ih =>
    intro position depth
    simp only [map_node, map_cons, map_nil, lines, ih, setupSpelling_map f hs,
      clauseSpelling_map f ht, clauseSpelling_map f hu]
    cases position <;> rfl
  | forIn hh hv _ ih =>
    intro position depth
    simp only [map_node, map_cons, map_nil, lines, ih, headSpelling_map f hh, spelling_map f hv]
    cases position <;> rfl
  | function _ hps ih =>
    intro position depth
    simp only [map_node, map_cons, lines, parameterSpelling_map f hps,
      listLines_map f fun c hc => ih c hc .line]
    cases position <;> rfl
  | label _ ih =>
    intro position depth
    simp only [map_node, map_cons, map_nil, lines, ih]
    cases position <;> rfl
  | «return» he =>
    intro position depth
    simp only [map_node, map_cons, map_nil, lines, isUndefined_map, spelling_map f he]
    cases position <;> rfl
  | «try» _ _ _ ih ihh ihf =>
    intro position depth
    simp only [map_node, map_cons, map_nil, lines, listLines_map f fun c hc => ih c hc .line,
      handlerLines_map f fun q hq c hc => ihh q hq c hc .line,
      finalizerLines_map f fun ds hds c hc => ihf ds hds c hc .line]
    cases position <;> rfl
  | varStatement hvs =>
    intro position depth
    simp only [map_node, lines, declarationsSpelling_map f hvs]
    cases position <;> rfl
  | ifElse ht ha _ iha ihb =>
    intro position depth
    simp only [map_node, map_cons, map_nil, lines, ifLines, isEmpty_map,
      endsOpen_map f ha, testSpelling_map f ht, iha, ihb]
    cases position <;> rfl
  | «break» | «continue» | debugger | directive | empty =>
    intro position depth
    simp only [map_node, map_nil, lines]
    cases position <;> rfl

theorem print_congr {u : Tree β} (h : t.bare = u.bare) (ht : t.WellShaped)
    (hmodule : t.kind = .module) : t.print st = u.print st := by
  have hbare : ∀ {γ : Type} {t : Tree γ}, t.WellShaped → t.kind = .module →
      t.text st = t.bare.text st := by
    intro γ t ht hmodule
    obtain ⟨m, k, cs⟩ := t
    obtain rfl : k = _ := hmodule
    have hcs := isStatement_of_module ht
    rw [text, text, bare, children_map, children_node,
      listLines_map _ fun c hc => lines_map _ (hcs c hc) .line]
  have hu : u.WellShaped := by
    rwa [← wellShaped_map, ← bare, ← h, bare, wellShaped_map]
  have hmodule' : u.kind = .module := by
    rw [← hmodule, ← kind_map (fun _ => ()) t, ← bare, h, bare, kind_map]
  rw [print_eq ht hmodule, print_eq hu hmodule', hbare ht hmodule, hbare hu hmodule', h]

end Tree

end ScriptPress
