import ScriptPress.Proofs.Estree.Scope
import ScriptPress.Proofs.Tree.Labels

/-! # Labels in documents -/

namespace ScriptPress

open List

theorem Symbol.Within.size_le {table table' : Array Symbol} (h : Symbol.Within table table') :
    table.size ≤ table'.size := by
  by_contra hsize
  have hlast := h table'.size _ (Array.getElem?_eq_getElem (Nat.lt_of_not_le hsize))
  rw [Array.getElem?_eq_none (Nat.le_refl _)] at hlast
  cases hlast

namespace Tree

structure Fenced (around : List SymbolId) (i k : Nat) (ts : List (Tree Unit)) : Prop where
  enclosed : ∀ t ∈ ts, Enclosed around t
  nodup : (ts.flatMap labels).Nodup
  range : ∀ s ∈ ts.flatMap labels, i ≤ s.index ∧ s.index < k

namespace Fenced

variable {around : List SymbolId} {i j k : Nat} {ts us : List (Tree Unit)}

theorem congr {inner : List SymbolId} (h : Fenced inner i k us)
    (henclosed : ∀ t ∈ ts, Enclosed around t) (hlabels : ts.flatMap labels = us.flatMap labels) :
    Fenced around i k ts :=
  ⟨henclosed, hlabels ▸ h.nodup, hlabels ▸ h.range⟩

theorem nil : Fenced around i k [] := ⟨by simp, nodup_nil, by simp⟩

theorem quiet_cons {t : Tree Unit} (ht : t.Quiet) (h : Fenced around i k ts) :
    Fenced around i k (t :: ts) := by
  refine h.congr (forall_mem_cons.mpr ⟨ht.2 around, h.enclosed⟩) ?_
  rw [flatMap_cons, ht.1, nil_append]

theorem startingAt (h : Fenced around j k ts) (hij : i ≤ j) : Fenced around i k ts := by
  refine ⟨h.enclosed, h.nodup, fun s hs => ?_⟩
  exact ⟨Nat.le_trans hij (h.range s hs).1, (h.range s hs).2⟩

theorem append (h : Fenced around i j ts) (h' : Fenced around j k us) (hij : i ≤ j) (hjk : j ≤ k) :
    Fenced around i k (ts ++ us) := by
  constructor
  · exact forall_mem_append.mpr ⟨h.enclosed, h'.enclosed⟩
  · rw [flatMap_append, nodup_append]
    refine ⟨h.nodup, h'.nodup, ?_⟩
    rintro s hs s' hs' rfl
    exact absurd (h.range s hs).2 (Nat.not_lt.mpr (h'.range s hs').1)
  · rw [flatMap_append, forall_mem_append]
    constructor
    · intro s hs
      exact ⟨(h.range s hs).1, Nat.lt_of_lt_of_le (h.range s hs).2 hjk⟩
    · intro s hs
      exact ⟨Nat.le_trans hij (h'.range s hs).1, (h'.range s hs).2⟩

theorem label {s : SymbolId} {body : Tree Unit} (h : Fenced (s :: around) (s.index + 1) k [body])
    (hi : i ≤ s.index) (hk : s.index < k) : Fenced around i k [.plain (.label s) [body]] := by
  have hlabels : [Tree.plain (.label s) [body]].flatMap labels = s :: [body].flatMap labels := by
    rw [flatMap_singleton, plain, labels_node]
    rfl
  refine ⟨forall_mem_singleton.mpr (enclosed_node.mpr ⟨?_, h.enclosed⟩), ?_, ?_⟩
  · intro target htarget
    cases htarget
  · rw [hlabels, nodup_cons]
    refine ⟨fun hs => ?_, h.nodup⟩
    exact absurd (h.range s hs).1 (Nat.not_le.mpr (Nat.lt_succ_self _))
  · rw [hlabels, forall_mem_cons]
    refine ⟨⟨hi, hk⟩, fun t ht => ?_⟩
    have ht := h.range t ht
    omega

theorem node {kind : Kind} (hkind : kind.label? = none)
    (hjump : ∀ s, kind.jumpsTo? = some s → s ∈ around)
    (h : Fenced (kind.labelsInside around) i k ts) : Fenced around i k [.plain kind ts] := by
  refine h.congr (forall_mem_singleton.mpr (enclosed_node.mpr ⟨hjump, h.enclosed⟩)) ?_
  rw [flatMap_singleton, plain, labels_node, hkind]
  rfl

end Fenced

end Tree

open Tree (Fenced)

def Scope.labelSymbols (scope : Scope) : List SymbolId := scope.labels.map Prod.snd

namespace Element

variable {role : Role} {scope : Scope} {e : Element} {n m n' : Names} {k : Kind} {items : List Item}
  {t : Tree Unit} {ts : List (Tree Unit)}

theorem mem_labelSymbols_of_jumpLabel {target : Option SymbolId} {s : SymbolId}
    (h : e.jumpLabel scope = .ok target) (hs : target = some s) : s ∈ scope.labelSymbols := by
  unfold jumpLabel at h
  obtain ⟨l, -, h⟩ := exists_of_bind_eq_ok h
  split at h
  · cases h
    cases hs
  · obtain ⟨name, -, h⟩ := exists_of_bind_eq_ok h
    split at h
    · rename_i hlookup
      cases h
      cases hs
      obtain ⟨l, r, hlabels, -⟩ := lookup_eq_some_iff.mp hlookup
      rw [Scope.labelSymbols, hlabels]
      simp
    · cases h

def Item.Among (around : List SymbolId) : Item → Prop
  | read _ scope _ => scope.labelSymbols = around
  | made t => t.Quiet

theorem ReadsAll.fenced {R : Way} {around : List SymbolId} (h : ReadsAll R items n ts n')
    (hn : n.Sound) (hitems : ∀ item ∈ items, item.Among around)
    (hR : ∀ {role scope e n t n'}, R role scope e n t n' → Reads role scope e n t n')
    (ih : ∀ {role scope e n t n'}, R role scope e n t n' → n.Sound →
      Fenced scope.labelSymbols n.symbols.size n'.symbols.size [t]) :
    Fenced around n.symbols.size n'.symbols.size ts := by
  induction h with
  | nil => exact .nil
  | @cons item items n t m ts n' h hs ih' =>
    rw [forall_mem_cons] at hitems
    cases item with
    | read role scope e =>
      obtain ⟨hm, hwithin⟩ := (hR h).grows hn
      have hwithin' := ((hs.grows fun h => (hR h).grows) hm).2
      have ht := ih h hn
      rw [hitems.1] at ht
      exact ht.append (ih' hm hitems.2) hwithin.size_le hwithin'.size_le
    | made t' =>
      obtain ⟨rfl, rfl⟩ := h
      exact .quiet_cons hitems.1 (ih' hn hitems.2)

theorem Arranges.among (h : Arranges role scope e n k items m) :
    ∀ item ∈ items, item.Among (k.labelsInside scope.labelSymbols) := by
  by_cases hk : k.opensScope = false
  · have hlabels : k.labelsInside scope.labelSymbols = scope.labelSymbols := by
      cases k <;> first | rfl | cases hk
    rw [hlabels]
    rcases h.inside hk with hitems | ⟨rfl, rfl, a, b, rfl⟩
    · intro item hitem
      have hin := hitems item hitem
      cases item with
      | read role inner e => exact congrArg Scope.labelSymbols hin
      | made t => rcases hin with rfl | rfl <;> exact Tree.quiet_leaf () rfl
    · have hmath : (Tree.plain (.identifier scope.known.math) []).Quiet := Tree.quiet_leaf () rfl
      have hpow : (Tree.plain (.member scope.known.pow)
          [.plain (.identifier scope.known.math) []]).Quiet :=
        Tree.quiet_node rfl (forall_mem_singleton.mpr hmath)
      simp [Item.Among, hpow]
  · cases h with
    | handler | label => exact forall_mem_singleton.mpr rfl
    | function _ _ _ _ _ hparameters =>
      refine forall_mem_cons.mpr ⟨rfl, forall_mem_map.mpr fun t ht => ?_⟩
      obtain ⟨s, rfl⟩ := parameters_eq hparameters t ht
      exact Tree.quiet_node rfl (forall_mem_singleton.mpr (Tree.quiet_leaf () rfl))
    | literal _ hliteral => cases k <;> first | exact absurd rfl hk | cases hliteral
    | _ => exact absurd rfl hk

theorem Reads.fenced (h : Reads role scope e n t n') (hn : n.Sound) :
    Fenced scope.labelSymbols n.symbols.size n'.symbols.size [t] := by
  have hfit := h.fit
  induction h with
  | @node role scope e n k items m ts n' R h hts hR ih =>
    obtain ⟨hm, hwithin⟩ := h.grows hn
    have hts' := hts.fenced hm h.among hR fun h hn => ih h hn (hR h).fit
    cases hk : k.label? with
    | none =>
      refine .node hk (fun s hs => ?_) (hts'.startingAt hwithin.size_le)
      cases h with
      | «break» _ htarget | «continue» _ htarget => exact mem_labelSymbols_of_jumpLabel htarget hs
      | literal _ hliteral => cases k <;> first | (cases hliteral; done) | cases hs
      | _ => cases hs
    | some s =>
      cases h with
      | label _ _ _ hs =>
        have hsize := ((hts.grows fun h => (hR h).grows) hm).2.size_le
        obtain _ | ⟨hbody, _ | _⟩ := hts
        cases hk
        cases hs
        rw [Array.size_push] at hts' hsize
        exact hts'.label (Nat.le_refl _) hsize
      | literal _ hliteral => cases k <;> first | (cases hliteral; done) | cases hk
      | _ => cases hk
  | _ => exact .quiet_cons hfit.quiet .nil

end Element

end ScriptPress
