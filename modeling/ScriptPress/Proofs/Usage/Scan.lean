import ScriptPress.Proofs.Tree.Form
import ScriptPress.Usage.Basic

/-! # What a scan records -/

namespace ScriptPress

open List

namespace Kind

/-- The symbol that a node mentions: its own, or the label that it jumps to. -/
def mentioned? : Kind → Option SymbolId
  | .break l | .continue l => l
  | k => k.symbol?

/-- The first child is what the node writes to: the operand of an update, the left side of an
assignment, the head of a for-in loop. -/
def writesFirst (k : Kind) : Bool := k.isUnaryAssign || k.isAssign || k == .forIn

def isWrite : Kind → Bool
  | function _ | label _ | property _ | .variable _ | .catch _ => true
  | _ => false

/-- Names and members, which write where they are what is written to. -/
def isNameOrMember : Kind → Bool
  | identifier _ | member _ => true
  | _ => false

def access (k : Kind) (target : Bool) : Access :=
  if k.isWrite || k.isNameOrMember && target then .write else .read

theorem access_eq_write {k : Kind} {target : Bool} :
    k.access target = .write ↔ k.isWrite ∨ k.isNameOrMember ∧ target = true := by
  rw [access, ← Bool.and_eq_true, ← Bool.or_eq_true]
  split <;> simp_all

end Kind

namespace Tree

variable {α : Type} {cs : List (Tree α)} {t : Tree α}

mutual

/-- The uses of symbols in a tree, if none of its parts is missing. -/
def uses (target : Bool) : Tree α → List (Occurrence α)
  | node m kind cs =>
    match kind, cs with
    | .identifier s, _ => [⟨s, if target then .write else .read, m⟩]
    | .member s, [o] =>
      if target then uses false o ++ [⟨s, .write, m⟩] else ⟨s, .read, m⟩ :: uses false o
    | .break (some s), _ | .continue (some s), _ => [⟨s, .read, m⟩]
    | .function s, cs | .label s, cs | .property s, cs | .variable s, cs | .catch s, cs =>
      ⟨s, .write, m⟩ :: usesAll cs
    | .unary op, [x] => uses op.isAssign x
    | .assign _, [x, y] => uses true x ++ uses false y
    | .forIn, [h, v, b] => uses true h ++ uses false v ++ uses false b
    | _, cs => usesAll cs

def usesAll : List (Tree α) → List (Occurrence α)
  | [] => []
  | c :: cs => uses false c ++ usesAll cs

end

theorem usesAll_eq (cs : List (Tree α)) : usesAll cs = cs.flatMap (uses false) := by
  induction cs with
  | nil => rw [usesAll, flatMap_nil]
  | cons c cs ih => rw [usesAll, flatMap_cons, ih]

theorem allOccurrences_eq (h : ∀ c ∈ cs, c.occurrences false = .ok (c.uses false)) :
    allOccurrences cs = .ok (usesAll cs) := by
  induction cs with
  | nil => rw [allOccurrences, usesAll]
  | cons c cs ih =>
    rw [allOccurrences, usesAll, h c mem_cons_self, ih fun d hd => h d (.tail _ hd)]
    rfl

theorem occurrences_eq (h : t.WellShaped) :
    ∀ target, t.occurrences target = .ok (t.uses target) := by
  induction t with
  | node m k cs ih =>
    have hcs := h.child
    have hall := allOccurrences_eq fun c hc => ih c hc (hcs c hc) false
    intro target
    cases k with
    | member s =>
      obtain ⟨o, rfl, ho⟩ := (wellShaped_one rfl).mp h
      rw [occurrences, uses]
      simp only [Part.memberObject, occurrencesAt, ih o mem_cons_self ho.2]
      rfl
    | unary op =>
      obtain ⟨x, rfl, hx⟩ := (wellShaped_one rfl).mp h
      rw [occurrences, uses]
      simp only [Part.unaryOperand, occurrencesAt, allOccurrences, ih x mem_cons_self hx.2]
      cases op.isAssign with
      | true => rfl
      | false => exact congrArg Except.ok (append_nil _)
    | assign op =>
      obtain ⟨x, y, rfl, hx, hy⟩ := (wellShaped_two rfl).mp h
      rw [occurrences, uses]
      simp only [Part.leftOperand, Part.rightOperand, occurrencesAt,
        ih x mem_cons_self hx.2, ih y (by simp) hy.2]
      rfl
    | forIn =>
      obtain ⟨x, y, z, rfl, hx, hy, hz⟩ := (wellShaped_three rfl).mp h
      rw [occurrences, uses]
      simp only [Part.forInSetup, Part.forInValue, Part.forInBody, occurrencesAt,
        ih x mem_cons_self hx.2, ih y (by simp) hy.2, ih z (by simp) hz.2]
      rfl
    | «break» l | «continue» l =>
      obtain rfl := (wellShaped_none rfl).mp h
      cases l with
      | none =>
        rw [occurrences.eq_def, uses.eq_def]
        exact hall
      | some s => rw [occurrences, uses]
    | identifier s => rw [occurrences, uses]
    | function s | label s | property s | «variable» s | «catch» s =>
      rw [occurrences, uses, hall]
      rfl
    | _ =>
      rw [occurrences.eq_def, uses.eq_def]
      exact hall

mutual

def placed (target : Bool) : Tree α → List (Bool × Tree α)
  | node m k cs => (target, node m k cs) :: placedAll k.writesFirst cs

def placedAll (target : Bool) : List (Tree α) → List (Bool × Tree α)
  | [] => []
  | c :: cs => placed target c ++ placedAll false cs

end

def use? (p : Bool × Tree α) : Option (Occurrence α) :=
  p.2.kind.mentioned?.map fun x => ⟨x, p.2.kind.access p.1, p.2.mark⟩

theorem map_snd_placedAll (h : ∀ c ∈ cs, ∀ target, (c.placed target).map Prod.snd = c.subtrees)
    (target : Bool) : (placedAll target cs).map Prod.snd = subtreesAll cs := by
  induction cs generalizing target with
  | nil => rfl
  | cons c cs ih =>
    rw [forall_mem_cons] at h
    rw [placedAll, map_append, subtreesAll, h.1, ih h.2]

theorem map_snd_placed (t : Tree α) : ∀ target, (t.placed target).map Prod.snd = t.subtrees := by
  induction t with
  | node m k cs ih =>
    intro target
    rw [placed, map_cons, map_snd_placedAll ih, subtrees]

theorem usesAll_perm (h : ∀ c ∈ cs, (c.uses false).Perm ((c.placed false).filterMap use?)) :
    (usesAll cs).Perm ((placedAll false cs).filterMap use?) := by
  induction cs with
  | nil => rfl
  | cons c cs ih =>
    rw [forall_mem_cons] at h
    rw [usesAll, placedAll, filterMap_append]
    exact h.1.append (ih h.2)

theorem uses_perm (h : t.WellShaped) :
    ∀ target, (t.uses target).Perm ((t.placed target).filterMap use?) := by
  induction t with
  | node m k cs ih =>
    have hcs : ∀ c ∈ cs, ∀ b, (c.uses b).Perm ((c.placed b).filterMap use?) :=
      fun c hc => ih c hc (h.child c hc)
    have hall := usesAll_perm fun c hc => hcs c hc false
    intro target
    rw [placed]
    cases k with
    | member s =>
      obtain ⟨o, rfl, -⟩ := (wellShaped_one rfl).mp h
      rw [usesAll, usesAll, append_nil] at hall
      rw [uses]
      cases target with
      | false => exact hall.cons _
      | true => exact (perm_append_singleton _ _).trans (hall.cons _)
    | unary op =>
      obtain ⟨a, rfl, -⟩ := (wellShaped_one rfl).mp h
      have hfirst : (Kind.unary op).writesFirst = op.isAssign := by
        simp [Kind.writesFirst, Kind.isUnaryAssign, Kind.isAssign]
      rw [uses, hfirst, placedAll, placedAll, append_nil]
      exact hcs a (.head _) _
    | assign op =>
      obtain ⟨a, b, rfl, -⟩ := (wellShaped_two rfl).mp h
      have hfirst : (Kind.assign op).writesFirst := rfl
      rw [uses, hfirst, placedAll, placedAll, placedAll, append_nil,
        filterMap_cons_none rfl, filterMap_append]
      exact (hcs a mem_cons_self true).append (hcs b (by simp) false)
    | forIn =>
      obtain ⟨a, b, c, rfl, -⟩ := (wellShaped_three rfl).mp h
      have hfirst : Kind.forIn.writesFirst := rfl
      rw [uses, hfirst, placedAll, placedAll, placedAll, placedAll, append_nil,
        filterMap_cons_none rfl, filterMap_append, filterMap_append, append_assoc]
      exact (hcs a (.head _) true).append
        ((hcs b (by simp) false).append (hcs c (by simp) false))
    | identifier s =>
      obtain rfl := (wellShaped_none rfl).mp h
      rw [uses]
      exact .refl _
    | «break» l | «continue» l =>
      obtain rfl := (wellShaped_none rfl).mp h
      cases l with
      | none =>
        rw [uses.eq_def]
        exact hall
      | some s =>
        rw [uses]
        exact .refl _
    | function s | label s | property s | «variable» s | «catch» s =>
      rw [uses]
      exact hall.cons _
    | _ =>
      rw [uses.eq_def]
      exact hall

theorem node_of_mem_uses {target : Bool} {o : Occurrence α} (h : t.WellShaped)
    (ho : o ∈ t.uses target) :
    ∃ u ∈ t.subtrees, u.mark = o.mark ∧ u.kind.mentioned? = some o.symbol ∧
      (u.kind.isVariable → o.access = .write) := by
  obtain ⟨⟨b, u⟩, hp, huse⟩ := mem_filterMap.mp ((uses_perm h target).mem_iff.mp ho)
  obtain ⟨x, hx, rfl⟩ := Option.map_eq_some_iff.mp huse
  refine ⟨u, map_snd_placed t target ▸ mem_map_of_mem hp, rfl, hx, fun hvariable => ?_⟩
  cases hk : u.kind <;> rw [hk] at hvariable <;> cases hvariable
  rfl

theorem mem_uses_of_node {t u : Tree α} {x : SymbolId} (h : t.WellShaped) (hu : u ∈ t.subtrees)
    (hx : u.kind.mentioned? = some x) (target : Bool) : ∃ a, ⟨x, a, u.mark⟩ ∈ t.uses target := by
  rw [← map_snd_placed t target] at hu
  obtain ⟨⟨b, u⟩, hp, rfl⟩ := mem_map.mp hu
  refine ⟨u.kind.access b, (uses_perm h target).mem_iff.mpr (mem_filterMap.mpr ⟨_, hp, ?_⟩)⟩
  rw [use?, hx, Option.map_some]

theorem marks_filterMap_use? (ps : List (Bool × Tree α)) :
    ((ps.filterMap use?).map Occurrence.mark).Sublist ((ps.map Prod.snd).map mark) := by
  induction ps with
  | nil => exact .slnil
  | cons p ps ih =>
    cases hx : p.2.kind.mentioned? with
    | none =>
      rw [filterMap_cons_none (by rw [use?, hx, Option.map_none])]
      exact ih.cons _
    | some x =>
      rw [filterMap_cons_some (by rw [use?, hx, Option.map_some])]
      exact ih.cons_cons _

theorem nodup_marks_usesAll {ts : List (Tree α)} (h : ∀ t ∈ ts, t.WellShaped)
    (hnodup : (ts.flatMap preorder).Nodup) : ((usesAll ts).map Occurrence.mark).Nodup := by
  have hperm := usesAll_perm fun t ht => uses_perm (h t ht) false
  rw [← map_mark_subtreesAll, ← map_snd_placedAll (fun t _ => map_snd_placed t) false] at hnodup
  exact (hperm.map Occurrence.mark).nodup_iff.mpr ((marks_filterMap_use? _).nodup hnodup)

end Tree

namespace Usages

variable {α : Type} {os : List (Occurrence α)} {x : SymbolId} {o : Occurrence α} {us : Usages α}

def marksOf (os : List (Occurrence α)) (x : SymbolId) (a : Access) : List α :=
  (os.filter fun o => o.symbol = x ∧ o.access = a).map Occurrence.mark

def usageOf (os : List (Occurrence α)) (x : SymbolId) : Usage α :=
  ⟨marksOf os x .read, marksOf os x .write⟩

theorem mem_marksOf {a : Access} {m : α} : m ∈ marksOf os x a ↔ ⟨x, a, m⟩ ∈ os := by
  simp only [marksOf, mem_map, mem_filter, decide_eq_true_eq]
  constructor
  · rintro ⟨⟨_, _, _⟩, ⟨ho, rfl, rfl⟩, rfl⟩
    exact ho
  · intro h
    exact ⟨_, ⟨h, rfl, rfl⟩, rfl⟩

theorem usageOf_absent (h : ¬∃ o ∈ os, o.symbol = x) : usageOf os x = ⟨[], []⟩ := by
  have hnone : ∀ a, marksOf os x a = [] := by
    intro a
    rw [eq_nil_iff_forall_not_mem]
    exact fun m hm => h ⟨_, mem_marksOf.mp hm, rfl⟩
  rw [usageOf, hnone, hnone]

theorem usageOf_concat_self (os : List (Occurrence α)) (o : Occurrence α) :
    usageOf (os ++ [o]) o.symbol = merge (usageOf os o.symbol) (single o) := by
  obtain ⟨x, a, m⟩ := o
  cases a <;> simp [usageOf, marksOf, merge, single]

theorem usageOf_concat_of_ne (h : o.symbol ≠ x) : usageOf (os ++ [o]) x = usageOf os x := by
  simp [usageOf, marksOf, h]

def Ordered (us : Usages α) : Prop := us.Pairwise fun a b => a.1.index < b.1.index

theorem key_of_mem_record {e : SymbolId × Usage α} (h : e ∈ record o us) :
    e.1 = o.symbol ∨ ∃ e' ∈ us, e.1 = e'.1 := by
  induction us with
  | nil =>
    obtain rfl := mem_singleton.mp h
    exact .inl rfl
  | cons e' us ih =>
    obtain ⟨s, u⟩ := e'
    rw [record] at h
    split at h
    · rcases mem_cons.mp h with rfl | h
      · exact .inl rfl
      · exact .inr ⟨e, h, rfl⟩
    · split at h
      · rename_i heq
        rcases mem_cons.mp h with rfl | h
        · exact .inl heq.symm
        · exact .inr ⟨e, mem_cons_of_mem _ h, rfl⟩
      · rcases mem_cons.mp h with rfl | h
        · exact .inr ⟨_, mem_cons_self, rfl⟩
        · rcases ih h with h | ⟨e', he', h⟩
          · exact .inl h
          · exact .inr ⟨e', mem_cons_of_mem _ he', h⟩

theorem index_ne {y : SymbolId} (h : x ≠ y) : x.index ≠ y.index := by
  obtain ⟨i⟩ := x
  obtain ⟨j⟩ := y
  exact fun hij => h (congrArg SymbolId.mk hij)

theorem Ordered.record (h : Ordered us) (o : Occurrence α) : Ordered (Usages.record o us) := by
  induction us with
  | nil => exact pairwise_singleton _ _
  | cons e us ih =>
    obtain ⟨s, u⟩ := e
    obtain ⟨hs, hus⟩ := pairwise_cons.mp h
    rw [Usages.record]
    split
    · rename_i hlt
      refine pairwise_cons.mpr ⟨fun e he => ?_, h⟩
      rcases mem_cons.mp he with rfl | he
      · exact hlt
      · exact Nat.lt_trans hlt (hs e he)
    · rename_i hle
      split
      · exact pairwise_cons.mpr ⟨hs, hus⟩
      · rename_i hne
        refine pairwise_cons.mpr ⟨fun e he => ?_, ih hus⟩
        rcases key_of_mem_record he with hkey | ⟨e', he', hkey⟩
        · have hindex := index_ne hne
          show s.index < e.1.index
          rw [hkey]
          omega
        · rw [hkey]
          exact hs e' he'

theorem mem_record (h : Ordered us) {u : Usage α} :
    (x, u) ∈ record o us ↔ (x ≠ o.symbol ∧ (x, u) ∈ us) ∨ (x = o.symbol ∧
        ((∃ v, (x, v) ∈ us ∧ u = merge v (single o)) ∨ ((∀ v, (x, v) ∉ us) ∧ u = single o))) := by
  induction us with
  | nil =>
    rw [record]
    simp
  | cons e us ih =>
    obtain ⟨s, w⟩ := e
    obtain ⟨hs, hus⟩ := pairwise_cons.mp h
    rw [record]
    split
    · rename_i hlt
      have hnew : ∀ v, (o.symbol, v) ∉ (s, w) :: us := by
        intro v hv
        rcases mem_cons.mp hv with heq | hv
        · cases heq
          exact Nat.lt_irrefl _ hlt
        · exact Nat.lt_asymm hlt (hs _ hv)
      rw [mem_cons, Prod.mk.injEq]
      by_cases hx : x = o.symbol
      · subst hx
        simp [hnew]
      · simp [hx]
    · split
      · rename_i heq
        have hold : ∀ v, (s, v) ∉ us := fun v hv => Nat.lt_irrefl _ (hs (s, v) hv)
        rw [mem_cons, Prod.mk.injEq, heq]
        by_cases hx : x = s
        · subst hx
          simp [hold]
        · simp [hx]
      · rename_i hne
        rw [mem_cons, Prod.mk.injEq, ih hus]
        by_cases hx : x = o.symbol
        · subst hx
          simp [hne]
        · simp [hx]

structure Lists (os : List (Occurrence α)) (us : Usages α) : Prop where
  ordered : Ordered us
  mem : ∀ x u, (x, u) ∈ us ↔ (∃ o ∈ os, o.symbol = x) ∧ u = usageOf os x

theorem Lists.record (h : Lists os us) (o : Occurrence α) :
    Lists (os ++ [o]) (Usages.record o us) := by
  refine ⟨h.ordered.record o, fun x u => ?_⟩
  rw [mem_record h.ordered]
  by_cases hx : x = o.symbol
  · subst hx
    simp only [h.mem, usageOf_concat_self]
    by_cases hseen : ∃ o' ∈ os, o'.symbol = o.symbol
    · simp [hseen]
    · simp [hseen, usageOf_absent hseen, merge]
  · have hne : o.symbol ≠ x := fun heq => hx heq.symm
    simp [hx, hne, h.mem, usageOf_concat_of_ne hne]

theorem Lists.foldl (h : Lists os us) (os' : List (Occurrence α)) :
    Lists (os ++ os') (os'.foldl (fun us o => Usages.record o us) us) := by
  induction os' generalizing os us with
  | nil =>
    rw [append_nil]
    exact h
  | cons o os' ih =>
    rw [append_cons]
    exact ih (h.record o)

theorem lists_ofOccurrences (os : List (Occurrence α)) : Lists os (ofOccurrences os) := by
  have hnil : Lists ([] : List (Occurrence α)) [] := ⟨.nil, by simp⟩
  exact hnil.foldl os

theorem ofTrees_eq {ts : List (Tree α)} (h : ∀ t ∈ ts, t.WellShaped) :
    ofTrees ts = .ok (ofOccurrences (Tree.usesAll ts)) := by
  have hmap : ts.mapM (Tree.occurrences false) = .ok (ts.map (Tree.uses false)) := by
    induction ts with
    | nil => rfl
    | cons t ts ih =>
      rw [mapM_cons, Tree.occurrences_eq (h t mem_cons_self), ih fun u hu => h u (.tail _ hu)]
      rfl
  rw [ofTrees, hmap, Tree.usesAll_eq, List.flatMap]
  rfl

end Usages

end ScriptPress
