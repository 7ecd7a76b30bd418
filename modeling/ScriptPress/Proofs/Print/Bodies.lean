import ScriptPress.Proofs.Print.Prologue

/-! # The bodies of a module -/

namespace ScriptPress

open List Fragment

open Fragment (ofPieces keyword braced block renderAll waitsAll)
open Prologue (read)

variable {mode : Mode} {m : Margin} {ps : List Piece} {r : List Char} {depth : Nat}

namespace Tree

variable {α : Type} {st : Style} {t : Tree α} {cs vs : List (Tree α)}

def head (st : Style) (s : SymbolId) (vs : List (Tree α)) : List Piece :=
  .word "function " :: .text (st.name s) :: .text "(" ::
    (parameterSpelling st true vs ++ [.text ")", .space, .text "\x7b"])

/-- The functions stand in the text one after the other, and the prologue of each body holds what is
written for the statements at its beginning. -/
inductive Located (st : Style) : List Char → List (Tree α) → Prop
  | nil {text : List Char} : Located st text []
  | cons {front text : List Char} {m : Margin} {a a' : α} {s : SymbolId} {cs vs fs : List (Tree α)}
    (hbody : read .ready text = leading cs ++ strays cs) (hrest : Located st text fs) :
    Located st (front ++ (render st.mode m (head st s vs)).1 ++ text)
      (node a (.function s) (node a' .block cs :: vs) :: fs)

theorem Located.append {text : List Char} {fs : List (Tree α)} (h : Located st text fs)
    (front : List Char) : Located st (front ++ text) fs := by
  cases h with
  | nil => exact .nil
  | cons hbody hrest =>
    rw [← append_assoc, ← append_assoc]
    exact .cons hbody hrest

def Shows (st : Style) (fs : List Fragment) (ts : List (Tree α)) : Prop :=
  ∀ m r us, m.semicolon = false → Located st r us →
    Located st ((renderAll st.mode m fs).1 ++ r) (ts ++ us)

namespace Shows

variable {fs gs : List Fragment} {ts us : List (Tree α)}

theorem none : Shows st fs ([] : List (Tree α)) := fun _ _ _ _ hr => hr.append _

theorem headed (hps : Plain ps) (h : Shows st fs ts) : Shows st (ofPieces ps ++ fs) ts := by
  intro m r us hm hr
  rw [renderAll_append, append_assoc]
  refine (h _ r us ?_ hr).append _
  rw [semicolon_renderAll, waitsAll_ofPieces hps, hm]

theorem append {seam : List Fragment} (hseam : Seam seam) (h : Shows st fs ts)
    (h' : Shows st gs us) : Shows st (fs ++ seam ++ gs) (ts ++ us) := by
  have hwaits : ∀ w, waitsAll st.mode w seam = false := by
    intro w
    cases hseam <;> rfl
  intro m r vs hm hr
  rw [append_assoc, renderAll_append, renderAll_append, append_assoc,
    append_assoc, append_assoc]
  refine h m _ _ hm ((h' _ r vs ?_ hr).append _)
  rw [semicolon_renderAll, hwaits]

end Shows

theorem ends_brace {fs : List Fragment} : Prologue.Ends
    ((renderAll mode m (.piece (.indent depth) :: .piece (.text "\x7d") :: fs)).1 ++ r) := by
  rw [renderAll_cons, renderAll_piece, renderAll_cons,
    renderAll_piece, append_assoc, append_assoc]
  refine ⟨?_, fun raw => ?_⟩
  · rw [Piece.read_isSpacing rfl rfl]
    rfl
  · rw [Piece.read_isSpacing rfl rfl]
    rfl

theorem shows_function {a a' : α} {s : SymbolId} (hcs : ∀ c ∈ cs, c.IsStatement)
    (hclean : ∀ c ∈ cs, c.Clean st) (hvs : ∀ v ∈ vs, v.IsVariable)
    {ts : List (Tree α)} (h : Shows st (listLines st (depth + 1) cs) ts) :
    Shows st ((node a (.function s) (node a' .block cs :: vs)).lines st .line depth)
      (node a (.function s) (node a' .block cs :: vs) :: ts) := by
  let closing := ofPieces [.indent depth, .text "\x7d", .dropPending, .newline]
  let body := .piece .newline :: (listLines st (depth + 1) cs ++ closing)
  have hlines : (node a (.function s) (node a' .block cs :: vs)).lines st .line depth =
      .piece (.indent depth) :: (ofPieces (head st s vs) ++ body) := by
    simp [body, closing, lines, head, keyword, block, braced, ofPieces]
  have hplain : Plain (head st s vs) := by simp [head, plain_parameterSpelling hvs]
  have hbody : Shows st body ts := by
    have hrest : Shows st (listLines st (depth + 1) cs ++ closing) ts := by
      intro m r us hm hr
      rw [renderAll_append, append_assoc]
      exact h m _ us hm (hr.append _)
    exact hrest.headed (show Plain [.newline] by simp)
  intro m r us hm hr
  have hsemicolon : (renderAll st.mode (renderAll st.mode m [.piece (.indent depth)]).2
      (ofPieces (head st s vs))).2.semicolon = false := by
    rw [semicolon_renderAll, waitsAll_ofPieces hplain,
      semicolon_renderAll]
    exact hm
  rw [renderAll_ofPieces] at hsemicolon
  rw [hlines, renderAll_cons, renderAll_append, renderAll_ofPieces,
    append_assoc, append_assoc, ← append_assoc, cons_append]
  refine .cons ?_ (hbody _ r us hsemicolon hr)
  rw [renderAll_cons, renderAll_piece, append_assoc,
    Piece.read_isSpacing rfl rfl, renderAll_append, append_assoc]
  rw [← written_eq]
  refine (reads_listLines hcs hclean ends_brace _).1 ?_
  rw [Piece.semicolon_margin]
  exact hsemicolon

theorem shows_laid {name : SymbolId → String} {L : Mode → List Fragment} {rs : List String}
    {ts : List (Tree α)} (h : Laid name L rs ts) (mode : Mode)
    (hclean : ∀ f ∈ ts, f.Clean ⟨mode, name⟩) : Shows ⟨mode, name⟩ (L mode) ts := by
  induction h with
  | nil | terminated | opening => exact .none
  | @cons p _ _ _ hp _ ih =>
    exact (ih hclean).headed (plain_cons.mpr ⟨Piece.isPlain_of_isFixed hp, plain_nil⟩)
  | headed h p hp _ ih =>
    have hplain := Piece.isPlain_of_isFixed (Piece.isFixed_of_divides hp)
    exact ((ih hclean).headed (plain_cons.mpr ⟨hplain, plain_nil⟩)).headed (h.plain mode)
  | append hseam _ _ ih ih' =>
    obtain ⟨hts, hts'⟩ := forall_mem_append.mp hclean
    exact .append hseam (ih hts) (ih' hts')
  | function hcs hvs _ _ ih _ =>
    obtain ⟨hf, hts⟩ := forall_mem_cons.mp hclean
    have hbody := (clean_node.mp hf).2 _ (.head _)
    exact shows_function hcs (clean_node.mp hbody).2 hvs (ih hts)

theorem located_text (h : t.WellShaped) (hmodule : t.kind = .module) (hclean : t.Clean st) :
    read .ready (t.text st) = leading t.children ++ strays t.children ∧
      Located st (t.text st) t.functions := by
  obtain ⟨a, k, cs⟩ := t
  obtain rfl : k = .module := hmodule
  obtain ⟨-, hclean⟩ := clean_node.mp hclean
  have hcs := isStatement_of_module h
  let rendered := renderAll st.mode .start (listLines st 0 cs)
  obtain ⟨ending, htext, hending⟩ : ∃ ending, (node a .module cs).text st = rendered.1 ++ ending ∧
      Prologue.Ends ending := by
    refine ⟨_, rfl, ?_⟩
    split
    · exact ⟨rfl, fun _ => rfl⟩
    · split
      · exact ⟨rfl, fun _ => rfl⟩
      · split <;> exact ⟨rfl, fun _ => rfl⟩
  have hshows : Shows st (listLines st 0 cs) (cs.flatMap functions) := by
    refine shows_laid (laid_statements 0 hcs) st.mode fun f hf => ?_
    obtain ⟨c, hc, hf⟩ := mem_flatMap.mp hf
    exact every_subtrees (hclean c hc) (mem_filter.mp hf).1
  rw [htext, functions_node, ← append_nil (cs.flatMap functions)]
  rw [children_node, ← written_eq]
  exact ⟨(reads_listLines hcs hclean hending .start).1 rfl, hshows _ _ [] rfl .nil⟩

end Tree

end ScriptPress
