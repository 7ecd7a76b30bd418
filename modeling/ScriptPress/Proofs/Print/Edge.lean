import ScriptPress.Proofs.Print.Fragment

/-! # What follows a regular expression -/

namespace ScriptPress

variable {name : SymbolId → String} {rs : List String} {L : Mode → List Fragment}

open List Fragment

open Fragment (ofPieces)

inductive Edge where
  | clear
  | literal
  | ended (waits : Bool)
deriving DecidableEq

namespace Piece

def edge? (mode : Mode) : Edge → Piece → Option Edge
  | .clear, regExp _ => some .literal
  | .clear, _ => some .clear
  | .literal, space => some (if mode = .normal then .clear else .literal)
  | .literal, terminator => some (if mode = .normal then .clear else .ended true)
  | .literal, p => if p.divides then some .clear else none
  | .ended w, newline | .ended w, indent _ => some (.ended w)
  | .ended true, pending => some .clear
  | .ended _, dropPending => some (.ended false)
  | .ended _, p => if p.delimits then some .clear else none

end Piece

def edgeBehind (mode : Mode) (e : Edge) (ps : List Piece) : Option Edge :=
  ps.foldlM (Piece.edge? mode) e

def Flows (mode : Mode) (ps : List Piece) : Prop :=
  edgeBehind mode .clear ps = some .clear ∨ edgeBehind mode .clear ps = some .literal

def Closes (mode : Mode) (ps : List Piece) : Prop :=
  edgeBehind mode .clear ps = some .clear ∨ edgeBehind mode .clear ps = some (.ended true)

variable {mode : Mode} {p : Piece} {ps qs : List Piece}

theorem edgeBehind_append : edgeBehind mode e (ps ++ qs) =
    (edgeBehind mode e ps).bind fun e' => edgeBehind mode e' qs :=
  foldlM_append

theorem edgeBehind_cons (hp : p.isFixed) :
    edgeBehind mode .clear (p :: ps) = edgeBehind mode .clear ps := by
  have hedge : p.edge? mode .clear = some .clear := by
    cases p <;> first | rfl | cases hp
  simp [edgeBehind, hedge]

theorem Piece.edge_literal (hp : p.divides) : p.edge? mode .literal = some .clear := by
  cases p <;> first | cases hp | simp [edge?, hp]

namespace Flows

theorem edgeBehind_divided (h : Flows mode ps) (hp : p.divides) :
    edgeBehind mode .clear (ps ++ p :: qs) = edgeBehind mode .clear qs := by
  rw [edgeBehind_append]
  rcases h with h | h <;> rw [h]
  · exact edgeBehind_cons (Piece.isFixed_of_divides hp)
  · simp [edgeBehind, Piece.edge_literal hp]

theorem divided (h : Flows mode ps) (hp : p.divides) (hqs : Flows mode qs) :
    Flows mode (ps ++ p :: qs) := by
  rwa [Flows, h.edgeBehind_divided hp]

end Flows

theorem edgeBehind_of_isFixed (h : ∀ p ∈ ps, p.isFixed) :
    edgeBehind mode .clear ps = some .clear := by
  induction ps with
  | nil => rfl
  | cons p ps ih =>
    obtain ⟨hp, hps⟩ := forall_mem_cons.mp h
    rw [edgeBehind_cons hp, ih hps]

theorem Written.flows {F : Mode → List Piece} (h : Written name F rs) (mode : Mode) :
    Flows mode (F mode) := by
  induction h with
  | nil => exact .inl rfl
  | number => exact .inl (edgeBehind_of_isFixed Style.isFixed_number)
  | boolean => exact .inl (edgeBehind_of_isFixed Style.isFixed_boolean)
  | regExp => exact .inr rfl
  | cons hp _ ih => rwa [Flows, edgeBehind_cons hp]
  | divided _ hp _ ih ih' => exact ih.divided hp ih'
  | space _ ih =>
    rw [Flows, edgeBehind_append]
    rcases ih with ih | ih <;> rw [ih]
    · exact .inl rfl
    · cases mode with
      | normal => exact .inl rfl
      | minified => exact .inr rfl

namespace Fragment

@[simp] def pieces : Fragment → List Piece
  | piece p => [p]
  | opening ps => ps

def flat (fs : List Fragment) : List Piece := fs.flatMap pieces

variable {f : Fragment} {fs gs : List Fragment}

@[simp] theorem flat_nil : flat [] = [] := rfl

@[simp] theorem flat_cons : flat (f :: fs) = f.pieces ++ flat fs := rfl

@[simp] theorem flat_append : flat (fs ++ gs) = flat fs ++ flat gs := flatMap_append

@[simp] theorem flat_ofPieces : flat (ofPieces ps) = ps := by
  induction ps with
  | nil => rfl
  | cons p ps ih => exact congrArg (p :: ·) ih

end Fragment

open Fragment (flat)

theorem Seam.closes {seam : List Fragment} (h : Seam seam) (hps : Closes mode ps)
    (hqs : Closes mode qs) : Closes mode (ps ++ flat seam ++ qs) := by
  rw [Closes, append_assoc, edgeBehind_append]
  cases h <;> rcases hps with hps | hps <;> rwa [hps]

theorem Laid.closes {α : Type} {ts : List (Tree α)} (h : Laid name L rs ts) (mode : Mode) :
    Closes mode (flat (L mode)) := by
  induction h with
  | nil => exact .inl rfl
  | terminated h | opening h =>
    simp only [flat_append, flat_ofPieces, flat_cons, pieces,
      flat_nil, append_nil]
    rw [Closes, edgeBehind_append]
    rcases h.flows mode with h | h <;> rw [h]
    · exact .inl rfl
    · cases mode with
      | normal => exact .inl rfl
      | minified => exact .inr rfl
  | cons hp _ ih => rwa [Closes, flat_cons, pieces, singleton_append,
      edgeBehind_cons hp]
  | headed h p hp _ ih =>
    rw [Closes, flat_append, flat_ofPieces, flat_cons, pieces,
      singleton_append, (h.flows mode).edgeBehind_divided hp]
    exact ih
  | append hseam _ _ ih ih' =>
    rw [flat_append, flat_append]
    exact hseam.closes ih ih'
  | function _ _ _ _ _ ih => exact ih

def Piece.source? : Piece → Option String
  | regExp source => some source
  | _ => none

def sources (ps : List Piece) : List String := ps.filterMap Piece.source?

theorem Piece.source_of_isFixed (h : p.isFixed) : p.source? = none := by
  cases p <;> first | rfl | cases h

theorem sources_append : sources (ps ++ qs) = sources ps ++ sources qs := filterMap_append

theorem sources_cons (hp : p.isFixed) : sources (p :: ps) = sources ps :=
  filterMap_cons_none (Piece.source_of_isFixed hp)

theorem sources_of_isFixed (h : ∀ p ∈ ps, p.isFixed) : sources ps = [] :=
  filterMap_eq_nil_iff.mpr fun p hp => Piece.source_of_isFixed (h p hp)

theorem Written.sources_eq {F : Mode → List Piece} (h : Written name F rs) (mode : Mode) :
    sources (F mode) = rs := by
  induction h with
  | nil | regExp => rfl
  | number => exact sources_of_isFixed Style.isFixed_number
  | boolean => exact sources_of_isFixed Style.isFixed_boolean
  | cons hp _ ih => rw [sources_cons hp, ih]
  | divided _ hp _ ih ih' =>
    rw [sources_append, ih, sources_cons (Piece.isFixed_of_divides hp), ih']
  | space _ ih => rw [sources_append, ih]; exact append_nil _

theorem Seam.sources_eq {seam : List Fragment} (h : Seam seam) : sources (flat seam) = [] := by
  cases h <;> rfl

theorem Laid.sources_eq {α : Type} {ts : List (Tree α)} (h : Laid name L rs ts) (mode : Mode) :
    sources (flat (L mode)) = rs := by
  induction h with
  | nil => rfl
  | terminated h =>
    rw [flat_append, flat_ofPieces, sources_append, h.sources_eq]
    exact append_nil _
  | opening h =>
    rw [flat_cons, sources_append]
    exact (congrArg (· ++ []) (h.sources_eq mode)).trans (append_nil _)
  | cons hp _ ih =>
    rw [flat_cons, pieces, singleton_append, sources_cons hp, ih]
  | headed h p hp _ ih =>
    rw [flat_append, flat_ofPieces, sources_append, h.sources_eq,
      flat_cons, pieces, singleton_append,
      sources_cons (Piece.isFixed_of_divides hp), ih]
  | append hseam _ _ ih ih' =>
    rw [flat_append, flat_append, sources_append, sources_append, ih, ih',
      hseam.sources_eq, append_nil]
  | function _ _ _ _ _ ih => exact ih

end ScriptPress
