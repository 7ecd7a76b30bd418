import ScriptPress.Proofs.Marks.Simplify
import ScriptPress.Proofs.Simplify.Progress
import ScriptPress.Proofs.Simplify.Whole

/-! # What one pass settles -/

namespace ScriptPress

open List Tree Step Simplifying

open Simplifying (Ensures Carries Runs)

namespace Tree

variable {α β : Type} {known : WellKnown} {S : Prop} {k : Kind}
variable {t : Tree (Option α)} {m : Option α} {cs : List (Tree (Option α))}

/-! ## Still nodes -/

def Still (known : WellKnown) (t : Tree (Option α)) : Prop :=
  Ensures (applyRules known t) fun n _ => n = 0

theorem still_of_eq (h : applyRules known t = pure t) : Still known t := by
  rw [Still, h]
  exact ensures_pure rfl

theorem Still.elim {P : Prop} (h : Still known t) (ht : t.WellShaped)
    (hP : Ensures (applyRules known t) fun n _ => n = 0 → P) : P := by
  obtain ⟨b, u, hruns, -⟩ : Carries known t id _ := applyRules_carries t ht
  exact hP.of_runs hruns (h.of_runs hruns)

theorem changes_blank {b : Tree (Option α)} {u : Trace α}
    (h : Runs (applyRules known t) b u) :
    ((applyRules known (t.bare.map fun _ => (none : Option Unit))).run ⟨0, []⟩).map
      (fun r => r.2.changes) = .ok u.changes := by
  have hmarks : t.map (fun _ => (none : Option Unit)) = t.bare.map fun _ => none := by
    rw [bare, map_map]
  have hrun := commutes_applyRules (fun _ : Option α => (none : Option Unit)) rfl known
    t ⟨0, []⟩
  rw [hmarks, h] at hrun
  rw [show (⟨0, []⟩ : Trace Unit) = Trace.map (fun _ => none) (⟨0, []⟩ : Trace α) from rfl, hrun]
  simp [Except.map, Trace.map, Trace.after]

theorem Still.congr {u : Tree (Option β)} (h : Still known t) (heq : t.bare = u.bare)
    (ht : t.WellShaped) (hu : u.WellShaped) : Still known u := by
  obtain ⟨b, v, hruns, -⟩ : Carries known t id _ := applyRules_carries t ht
  obtain ⟨b', v', hruns', -⟩ : Carries known u id _ := applyRules_carries u hu
  have hblank := changes_blank hruns'
  rw [← heq, changes_blank hruns, Except.ok.injEq] at hblank
  exact hruns'.ensures (hblank ▸ h.of_runs hruns)

/-! ## Calm trees -/

def Calm (known : WellKnown) (S : Prop) (t : Tree (Option α)) : Prop :=
  ∀ u ∈ t.subtrees, (u.kind = .sequence → S) → Still known u

theorem calm_node : Calm known S (node m k cs) ↔
      ((k = .sequence → S) → Still known (node m k cs)) ∧ ∀ c ∈ cs, Calm known S c := by
  constructor
  · intro h
    refine ⟨fun hk => h _ (mem_subtrees_self _) hk, fun c hc u hu => h u ?_⟩
    exact mem_subtrees_node.mpr (.inr ⟨c, hc, hu⟩)
  · rintro ⟨hroot, hcs⟩ u hu hk
    rcases mem_subtrees_node.mp hu with rfl | ⟨c, hc, hu⟩
    · exact hroot hk
    · exact hcs c hc u hu hk

theorem Calm.still (h : Calm known S t) (hk : t.kind ≠ .sequence) : Still known t :=
  h t (mem_subtrees_self t) fun hseq => absurd hseq hk

theorem Calm.children (h : Calm known S t) : ∀ c ∈ t.children, Calm known S c := by
  obtain ⟨m, k, cs⟩ := t
  exact (calm_node.mp h).2

theorem Calm.subtrees {u : Tree (Option α)} (h : Calm known S t) (hu : u ∈ t.subtrees) :
    Calm known S u :=
  fun v hv => h v (subtrees_trans hv hu)

theorem Calm.mark (h : Calm known S t) (ht : t.WellShaped) (m : Option α) :
    Calm known S (node m t.kind t.children) := by
  obtain ⟨m', k, cs⟩ := t
  rw [kind_node, children_node]
  obtain ⟨hroot, hcs⟩ := calm_node.mp h
  refine calm_node.mpr ⟨fun hk => (hroot hk).congr (by simp) ht ?_, hcs⟩
  exact wellShaped_node.mpr (wellShaped_node.mp ht)

theorem calm_of_eq (h : applyRules known (node m k cs) = pure (node m k cs))
    (hcs : ∀ c ∈ cs, Calm known S c) : Calm known S (node m k cs) :=
  calm_node.mpr ⟨fun _ => still_of_eq h, hcs⟩

theorem calm_empty : Calm known S (node m .empty []) :=
  calm_of_eq rfl (by simp)

theorem calm_literal (h : k.isLiteral) : Calm known S (node m k []) := by
  refine calm_of_eq ?_ (by simp)
  cases k <;> first | rfl | cases h

end Tree

namespace Simplifying

open Tree (Calm Still isTidy)

variable {α β : Type} {known : WellKnown} {S : Prop}
variable {t x c c' y v b a u : Tree (Option α)} {m : Option α} {cs l r : List (Tree (Option α))}
variable {k : Kind} {s : Step α}

theorem Carries.ready {g : β → Tree (Option α)} {x : Simplifying α β} (hx : Carries known t g x)
    (ht : t.WellShaped) (hguard : S → t.Guarded) :
    Ensures x fun _ b => (g b).WellShaped ∧ (S → (g b).Guarded) := by
  obtain ⟨b, u, hruns, hred, -⟩ := hx
  exact hruns.ensures ⟨(hred.wellShaped ht).1, fun hS => hred.guarded ht (hguard hS)⟩

/-! ## Sequences -/

theorem keepEffects_of_unchanged (h : c.discarded = .ok .unchanged) :
    keepEffects c = pure (some c) := by
  rw [keepEffects, h]
  rfl

theorem reduceElements_of_whole : ∀ {cs : List (Tree (Option α))},
    (∀ c ∈ cs.dropLast, c.isWhole) → reduceElements cs = pure cs
  | [], _ => rfl
  | [last], _ => rfl
  | c :: c₂ :: cs, h => by
    rw [dropLast_cons_cons, forall_mem_cons] at h
    have ih := reduceElements_of_whole h.2
    rw [reduceElements, keepEffects_of_unchanged (discarded_of_isWhole h.1), pure_bind]
    simp only [if_neg (not_sequence_of_isWhole h.1), ih, pure_bind]
    simp

theorem still_sequence (h : isTidy cs) : Still known (.node m .sequence cs) := by
  obtain ⟨hlen, hflat, hwhole⟩ := isTidy_iff.mp h
  apply still_of_eq
  show sequence m cs = _
  rw [sequence, flattenSequences_of_flat hflat, pure_bind,
    reduceElements_of_whole hwhole, pure_bind]
  split
  · exact absurd rfl hlen
  · rfl

theorem reduceElements_whole : ∀ cs : List (Tree (Option α)), (∀ c ∈ cs, c.Fit Kind.isExpression) →
    Ensures (reduceElements cs) fun n _ => n = 0 → (∀ c ∈ cs, c.kind ≠ .sequence) →
      ∀ c ∈ cs.dropLast, c.isWhole
  | [], _ => ensures_pure (by simp)
  | [last], _ => ensures_pure (by simp)
  | c :: c₂ :: cs, hfit => by
    have ih := reduceElements_whole (c₂ :: cs) fun c hc => hfit c (.tail _ hc)
    rw [dropLast_cons_cons]
    unfold reduceElements
    refine (keepEffects_kept c).bind fun n o h => ?_
    cases h with
    | nothing h =>
      refine ensures_release (ensures_noteChange (ih.imp fun n' _ _ hn => ?_))
      omega
    | unchanged h =>
      have hc : c.kind ≠ .sequence → c.isWhole := fun hk =>
        isWhole_of_unchanged (hfit c (.head _)) hk h
      dsimp only
      split
      · refine ensures_release (ih.bind fun n' _ h' => ensures_pure fun hn hno => ?_)
        exact forall_mem_cons.mpr ⟨hc (hno c (.head _)),
          h' (by omega) fun c hc => hno c (.tail _ hc)⟩
      · refine ih.bind fun n' _ h' => ensures_pure fun hn hno => ?_
        exact forall_mem_cons.mpr ⟨hc (hno c (.head _)),
          h' (by omega) fun c hc => hno c (.tail _ hc)⟩
    | reduced h =>
      dsimp only
      split
      · refine ensures_release (ih.bind fun n' _ _ => ensures_pure fun hn => ?_)
        omega
      · refine ih.bind fun n' _ _ => ensures_pure fun hn => ?_
        omega

theorem still_sequence_iff (ht : (node m .sequence cs).WellShaped) :
    Still known (.node m .sequence cs) ↔ isTidy cs := by
  refine ⟨fun h => h.elim ht ?_, still_sequence⟩
  show Ensures (sequence m cs) _
  have hflatten : Carries known (.node m .sequence cs) (.node m .sequence) (flattenSequences cs) :=
    flattenSequences_carries cs []
  unfold sequence
  refine ((flattenSequences_flat cs).and (hflatten.lightens ht)).bind ?_
  rintro n cs' ⟨hflat, hcs', hlight⟩
  have hfit := (wellShaped_of_element rfl).mp hcs'
  refine ((reduceElements_wellShaped known hcs').and (reduceElements_whole cs' hfit)).bind ?_
  rintro n' cs'' ⟨⟨-, hsame⟩, hwhole⟩
  split
  · refine ensures_perform fun hn => ?_
    omega
  · rename_i hno
    refine ensures_pure fun hn => ?_
    obtain rfl : cs' = cs := congrArg children (hlight.same (by omega))
    have hflat := hflat (by omega)
    refine isTidy_iff.mpr ⟨fun hlen => ?_, hflat, hwhole (by omega) hflat⟩
    obtain ⟨only, rfl⟩ := length_eq_one_iff.mp hlen
    exact hno only (hsame hflat (by omega))

theorem calm_tidy (htidy : S → isTidy cs) (hcs : ∀ c ∈ cs, Calm known S c) :
    Calm known S (.node m .sequence cs) :=
  calm_node.mpr ⟨fun hS => still_sequence (htidy (hS rfl)), hcs⟩

theorem Kept.fit {n : Nat} (h : Kept c n (some c')) (hc : c.Fit Kind.isExpression) :
    c'.Fit Kind.isExpression := by
  cases h with
  | unchanged h => exact hc
  | reduced h => exact (reduced_total hc h).1

theorem Kept.calm {n : Nat} (h : Kept c n (some c')) (hc : c.Fit Kind.isExpression)
    (hcalm : Calm known S c) : c'.discarded = .ok .unchanged ∧ Calm known S c' := by
  cases h with
  | unchanged h => exact ⟨h, hcalm⟩
  | reduced h =>
    refine ⟨discarded_reduced hc h, ?_⟩
    have hfit := (Kept.reduced h).fit hc
    rcases reduced_cases hc h with ⟨only, hbelow, -, heq⟩ | ⟨parts, heq, hlen, hparts⟩
    · rw [heq] at hfit ⊢
      exact (hcalm.subtrees hbelow).mark (fit_mark.mp hfit).2 c.mark
    · rw [heq]
      refine calm_tidy (fun _ => ?_) fun p hp => hcalm.subtrees (hparts p hp).2
      exact isTidy_of_whole hlen fun p hp => (hparts p hp).1

theorem isTidy_of_calm (hcalm : Calm known S c) (hc : c.WellShaped) (hk : c.kind = .sequence)
    (hS : S) : isTidy c.children := by
  obtain ⟨m, k, cs⟩ := c
  obtain rfl : k = .sequence := hk
  exact (still_sequence_iff hc).mp ((calm_node.mp hcalm).1 fun _ => hS)

theorem calm_commaParts (hcalm : Calm known S c) : ∀ p ∈ commaParts c, Calm known S p := by
  unfold commaParts
  split
  · exact hcalm.children
  · simpa using hcalm

theorem isTidy_comma (hx : commaParts x ≠ [])
    (hwhole : ∀ c ∈ commaParts x, c.isWhole) (hy : commaParts y ≠ [])
    (htidy : y.kind = .sequence → isTidy y.children) :
    isTidy (commaParts x ++ commaParts y) := by
  have hlen := two_le_comma hx hy
  have hparts : (∀ c ∈ commaParts y, c.kind ≠ .sequence) ∧
      ∀ c ∈ (commaParts y).dropLast, c.isWhole := by
    by_cases hk : y.kind = .sequence
    · obtain ⟨m, k, cs⟩ := y
      obtain rfl : k = .sequence := hk
      exact (isTidy_iff.mp (htidy rfl)).2
    · rw [commaParts_of_ne hk]
      exact ⟨by simpa using hk, by simp⟩
  refine isTidy_iff.mpr ⟨by omega, forall_mem_append.mpr ⟨fun c hc => ?_, hparts.1⟩, ?_⟩
  · exact not_sequence_of_isWhole (hwhole c hc)
  · rw [dropLast_append_of_ne_nil hy]
    exact forall_mem_append.mpr ⟨hwhole, hparts.2⟩

theorem flattenSequences_calm : ∀ {cs : List (Tree (Option α))},
    (∀ c ∈ cs, c.WellShaped ∧ Calm known S c) → Ensures (flattenSequences cs) fun _ cs' =>
      (∀ c ∈ cs', Calm known S c) ∧ (S → ∀ c ∈ cs', c.kind ≠ .sequence)
  | [], _ => ensures_pure (by simp)
  | c :: cs, h => by
    obtain ⟨hshape, hcalm⟩ := h c (.head _)
    have ih := flattenSequences_calm fun c hc => h c (.tail _ hc)
    unfold flattenSequences
    split
    · rename_i hk
      refine ensures_release (ensures_noteChange (ih.bind fun _ cs' h' => ensures_pure ⟨?_, ?_⟩))
      · exact forall_mem_append.mpr ⟨hcalm.children, h'.1⟩
      · intro hS
        have htidy := isTidy_iff.mp (isTidy_of_calm hcalm hshape hk hS)
        exact forall_mem_append.mpr ⟨htidy.2.1, h'.2 hS⟩
    · rename_i hk
      refine ih.bind fun _ cs' h' => ensures_pure ⟨?_, fun hS => ?_⟩
      · exact forall_mem_cons.mpr ⟨hcalm, h'.1⟩
      · exact forall_mem_cons.mpr ⟨hk, h'.2 hS⟩

theorem isWhole_dropLast (hl : ∀ c ∈ l, c.isWhole)
    (hr : ∀ c ∈ r.dropLast, c.isWhole) : ∀ c ∈ (l ++ r).dropLast, c.isWhole := by
  by_cases hne : r = []
  · rw [hne, append_nil]
    exact fun c hc => hl c (dropLast_subset l hc)
  · rw [dropLast_append_of_ne_nil hne]
    exact forall_mem_append.mpr ⟨hl, hr⟩

theorem reduceElements_calm : ∀ {cs : List (Tree (Option α))},
    (∀ c ∈ cs, c.Fit Kind.isExpression ∧ Calm known S c) →
    Ensures (reduceElements cs) fun _ cs' => (∀ c ∈ cs', Calm known S c) ∧
      ((∀ c ∈ cs, c.kind ≠ .sequence) → ∀ c ∈ cs', c.kind ≠ .sequence) ∧
      ∀ c ∈ cs'.dropLast, c.isWhole
  | [], _ => ensures_pure (by simp)
  | [last], h => ensures_pure (by simpa using (h last mem_cons_self).2)
  | c :: c₂ :: cs, h => by
    obtain ⟨hfit, hcalm⟩ := h c (.head _)
    have ih := reduceElements_calm fun c hc => h c (.tail _ hc)
    unfold reduceElements
    refine (keepEffects_kept c).bind fun n o hkept => ?_
    cases o with
    | none =>
      refine ensures_release (ensures_noteChange (ih.imp fun _ cs' h' => ⟨h'.1, ?_, h'.2.2⟩))
      exact fun hno => h'.2.1 fun c hc => hno c (.tail _ hc)
    | some c' =>
      obtain ⟨hunchanged, hcalm'⟩ := hkept.calm hfit hcalm
      have hwhole := (isWhole_commaParts (hkept.fit hfit) hunchanged).2
      -- Either way the parts of what is kept stand in front of the rest.
      have hparts : ∀ cs' : List (Tree (Option α)), ((∀ c ∈ cs', Calm known S c) ∧
          ((∀ c ∈ c₂ :: cs, c.kind ≠ .sequence) → ∀ c ∈ cs', c.kind ≠ .sequence) ∧
          ∀ c ∈ cs'.dropLast, c.isWhole) →
          (∀ c ∈ commaParts c' ++ cs', Calm known S c) ∧
          ((∀ p ∈ c :: c₂ :: cs, p.kind ≠ .sequence) →
            ∀ p ∈ commaParts c' ++ cs', p.kind ≠ .sequence) ∧
          ∀ p ∈ (commaParts c' ++ cs').dropLast, p.isWhole := by
        rintro cs' ⟨hcalms, hno, hlast⟩
        refine ⟨forall_mem_append.mpr ⟨calm_commaParts hcalm', hcalms⟩, fun h => ?_,
          isWhole_dropLast hwhole hlast⟩
        refine forall_mem_append.mpr ⟨fun p hp => ?_, hno (forall_mem_cons.mp h).2⟩
        exact not_sequence_of_isWhole (hwhole p hp)
      dsimp only
      split
      · rename_i hk
        obtain ⟨m, k, ps⟩ := c'
        obtain rfl : k = .sequence := hk
        exact ensures_release (ih.bind fun _ cs' h' => ensures_pure (hparts cs' h'))
      · rename_i hk
        rw [commaParts_of_ne hk] at hparts
        exact ih.bind fun _ cs' h' => ensures_pure (hparts cs' h')

theorem sequence_calm (ht : (node m .sequence cs).WellShaped)
    (hcs : ∀ c ∈ cs, Calm known S c) : Ensures (sequence m cs) fun _ t => Calm known S t := by
  have hflatten : Carries known (.node m .sequence cs) (.node m .sequence) (flattenSequences cs) :=
    flattenSequences_carries cs []
  have hshape := ht.child
  have hflat := flattenSequences_calm (S := S) fun c hc => ⟨hshape c hc, hcs c hc⟩
  unfold sequence
  refine (hflat.and (hflatten.wellShaped ht)).bind ?_
  rintro n cs' ⟨⟨hcalm, hflat⟩, hcs'⟩
  have hfit := (wellShaped_of_element rfl).mp hcs'
  have hcalms := reduceElements_calm (S := S) fun c hc => ⟨hfit c hc, hcalm c hc⟩
  refine (hcalms.and (reduceElements_wellShaped known hcs')).bind ?_
  rintro n' cs'' ⟨⟨hcalm', hno, hwhole⟩, hcs'', -⟩
  split
  · rename_i only
    exact ensures_perform ((hcalm' only (.head _)).mark
      (hcs''.child only (.head _)) m)
  · rename_i hne
    refine ensures_pure (calm_tidy (fun hS => ?_) hcalm')
    refine isTidy_iff.mpr ⟨fun hlen => ?_, hno (hflat hS), hwhole⟩
    obtain ⟨only, rfl⟩ := length_eq_one_iff.mp hlen
    exact hne only rfl

/-! ## Expression statements -/

theorem applyRules_expression (h : v.discarded = .ok .unchanged) :
    applyRules known (.node m .expression [v]) = pure (.node m .expression [v]) := by
  show expressionStatement m [v] = _
  rw [expressionStatement, keepEffects_of_unchanged h, pure_bind]

theorem expressionStatement_calm (hc : c.Fit Kind.isExpression) (hcalm : Calm known S c) :
    Ensures (expressionStatement m [c]) fun _ t => Calm known S t := by
  unfold expressionStatement
  refine (keepEffects_kept c).bind fun n o h => ?_
  cases o with
  | none => exact ensures_perform calm_empty
  | some c' =>
    obtain ⟨hunchanged, hcalm'⟩ := h.calm hc hcalm
    exact ensures_pure (calm_of_eq (applyRules_expression hunchanged) (by simpa using hcalm'))

theorem discarded_of_still (hv : v.Fit Kind.isExpression)
    (h : Still known (.node m .expression [v])) : v.discarded = .ok .unchanged := by
  refine h.elim ((wellShaped_singleton rfl).mpr hv) ?_
  show Ensures (expressionStatement m [v]) _
  unfold expressionStatement
  refine (keepEffects_kept v).bind fun n o h => ?_
  cases h with
  | nothing h =>
    refine ensures_perform fun hn => ?_
    omega
  | unchanged h => exact ensures_pure fun _ => h
  | reduced h =>
    refine ensures_pure fun hn => ?_
    omega

/-! ## Bodies -/

theorem lift_ok_bind {γ : Type} (c : γ) (f : γ → Simplifying α β) :
    (liftM (.ok c : Except Fault γ) >>= f) = f c :=
  rfl

theorem spliceBlocks_settled : ∀ cs : List (Tree (Option α)),
    Ensures (spliceBlocks cs) fun n _ => n = 0 →
      ∀ c ∈ cs, c.isEmpty = false ∧ c.isDissolvable = false
  | [] => ensures_pure (by simp)
  | c :: cs => by
    have ih := spliceBlocks_settled cs
    unfold spliceBlocks
    split
    · refine ensures_release (ensures_noteChange (ih.imp fun n _ _ hn => ?_))
      omega
    · rename_i hempty
      split
      · refine ensures_release (ensures_noteChange (ih.bind fun n _ _ => ensures_pure fun hn => ?_))
        omega
      · rename_i hblock
        refine ih.bind fun n _ h => ensures_pure fun hn => forall_mem_cons.mpr ⟨?_, h hn⟩
        exact ⟨by simpa using hempty, by simpa using hblock⟩

theorem applyRules_list (hk : k.isList) :
    applyRules known (.node m k cs) = statements m k cs := by
  cases k <;> first | rfl | cases hk

theorem settled_of_still (hk : k.isList) (ht : (node m k cs).WellShaped)
    (h : Still known (.node m k cs)) : ∀ c ∈ cs, c.isEmpty = false ∧ c.isDissolvable = false := by
  have hshape := wellShaped_block hk ht
  have hsplice : Carries known (.node none .block cs) (.node none .block) (spliceBlocks cs) :=
    spliceBlocks_carries rfl cs []
  refine h.elim ht ?_
  rw [applyRules_list hk]
  unfold statements
  refine ((spliceBlocks_settled cs).and (hsplice.wellShaped hshape)).bind ?_
  rintro n cs' ⟨hcs, hcs'⟩
  have hmerge : Carries known _ (.node none .block) (mergeNeighbours cs') :=
    mergeNeighbours_carries rfl hcs'
  refine (hmerge.wellShaped hcs').bind fun n' _ _ => ensures_pure fun hn => ?_
  exact hcs (by omega)

theorem isDissolvable_mark : (node m t.kind t.children).isDissolvable = t.isDissolvable := by
  obtain ⟨m', k, cs⟩ := t
  rfl

theorem unbrace_of_not_isDissolvable (h : t.isDissolvable = false) : t.unbrace? = none := by
  obtain ⟨m, k, cs⟩ := t
  simp only [unbrace?, h, Bool.false_eq_true, if_false]

theorem unbraced_calm (hb : b.WellShaped) (hcalm : Calm known S b) :
    Calm known S b.unbraced ∧ b.unbraced.unbrace? = none := by
  unfold unbraced
  cases hs : b.unbrace? with
  | none => exact ⟨hcalm, hs⟩
  | some s =>
    obtain ⟨m, ⟨rfl, rfl⟩ | ⟨c, rfl, rfl⟩⟩ := unbrace_cases hs
    · exact ⟨calm_empty, rfl⟩
    · have hsettled := settled_of_still rfl hb (hcalm.still (by simp)) c mem_cons_self
      have hc := hb.child c (.head _)
      refine ⟨(hcalm.children c (.head _)).mark hc m, ?_⟩
      exact unbrace_of_not_isDissolvable (isDissolvable_mark.trans hsettled.2)

theorem unbrace_unbraced (b : Tree (Option α)) :
    Ensures (unbrace b) fun _ b' => b' = b.unbraced := by
  unfold unbrace unbraced
  cases b.unbrace? with
  | none => exact ensures_pure rfl
  | some s => exact ensures_perform rfl

theorem unbrace_of_none (h : b.unbrace? = none) : unbrace b = pure b := by
  rw [unbrace, h]
  rfl

theorem within_calm {p : Part} (howner : p.owner k) (hposition : p.position = l.length)
    (hrules : ∀ cs, applyRules known (.node m k cs) = within p m k cs unbrace)
    (ht : (node m k (l ++ b :: r)).WellShaped) (hcs : ∀ c ∈ l ++ b :: r, Calm known S c) :
    Ensures (within p m k (l ++ b :: r) unbrace) fun _ t => Calm known S t := by
  have hget : ∀ c, p.get k (l ++ c :: r) = .ok c := by
    intro c
    simp [Part.get, howner, hposition]
  have hb := ht.child b (by simp)
  obtain ⟨hcalm, hnone⟩ := unbraced_calm hb (hcs b (by simp))
  unfold within
  refine ensures_lift fun c hc => ?_
  obtain rfl : b = c := Except.ok.inj ((hget b).symm.trans hc)
  refine (unbrace_unbraced b).bind fun _ b' hb' => ensures_pure ?_
  subst hb'
  have hset : (l ++ b :: r).set p.position b.unbraced = l ++ b.unbraced :: r := by simp [hposition]
  rw [hset]
  refine calm_of_eq ?_ ?_
  · rw [hrules, within, hget, lift_ok_bind, unbrace_of_none hnone, pure_bind]
    simp [hposition]
  · intro c hc
    rcases mem_append.mp hc with hc | hc
    · exact hcs c (mem_append_left _ hc)
    · rcases mem_cons.mp hc with rfl | hc
      · exact hcalm
      · exact hcs c (mem_append_right _ (.tail _ hc))

/-! ## Loops -/

structure LoopSettled (setup test update body : Tree (Option α)) : Prop where
  setup : setup.kind.isExpression → setup.discarded = .ok .unchanged
  test : test.kind.isTruthy = false
  update : update.kind.isExpression → update.discarded = .ok .unchanged
  body : body.unbrace? = none

theorem reduceClause_of_unchanged (h : c.kind.isExpression → c.discarded = .ok .unchanged) :
    reduceClause c = pure c := by
  unfold reduceClause
  split
  · rename_i hc
    rw [keepEffects_of_unchanged (h hc), pure_bind]
  · rfl

theorem LoopSettled.applyRules (h : LoopSettled a t u b) :
    applyRules known (.node m .forLoop [a, t, u, b]) = pure (.node m .forLoop [a, t, u, b]) := by
  show forLoop m [a, t, u, b] = _
  rw [forLoop, unbrace_of_none h.body, pure_bind, dropTruthyTest, if_neg (by simp [h.test]),
    pure_bind, reduceClause_of_unchanged h.setup, pure_bind, reduceClause_of_unchanged h.update,
    pure_bind]

theorem dropTruthyTest_calm (h : Calm known S t) :
    Ensures (dropTruthyTest t) fun _ t' => Calm known S t' ∧ t'.kind.isTruthy = false := by
  unfold dropTruthyTest
  split
  · exact ensures_perform ⟨calm_empty, rfl⟩
  · rename_i htruthy
    exact ensures_pure ⟨h, by simpa using htruthy⟩

theorem reduceClause_calm (hc : c.WellShaped) (hcalm : Calm known S c) :
    Ensures (reduceClause c) fun _ c' => Calm known S c' ∧
      (c'.kind.isExpression → c'.discarded = .ok .unchanged) := by
  unfold reduceClause
  split
  · rename_i hk
    refine (keepEffects_kept c).bind fun n o h => ?_
    cases o with
    | none => exact ensures_perform ⟨calm_empty, fun h => by cases h⟩
    | some c' =>
      obtain ⟨hunchanged, hcalm'⟩ := h.calm ⟨hk, hc⟩ hcalm
      exact ensures_pure ⟨hcalm', fun _ => hunchanged⟩
  · rename_i hk
    exact ensures_pure ⟨hcalm, fun h => absurd h hk⟩

theorem forLoop_settled (ha : a.WellShaped) (hu : u.WellShaped) (hb : b.WellShaped)
    (hcs : ∀ c ∈ [a, t, u, b], Calm known S c) :
    Ensures (forLoop m [a, t, u, b]) fun _ loop => ∃ a' t' u' b',
      loop = .node m .forLoop [a', t', u', b'] ∧ LoopSettled a' t' u' b' ∧
        ∀ c ∈ [a', t', u', b'], Calm known S c := by
  obtain ⟨hb', hnone⟩ := unbraced_calm hb (hcs b (by simp))
  unfold forLoop
  refine (unbrace_unbraced b).bind fun _ b' hbody => ?_
  subst hbody
  refine (dropTruthyTest_calm (hcs t (by simp))).bind fun _ t' htest => ?_
  refine (reduceClause_calm ha (hcs a (by simp))).bind fun _ a' hsetup => ?_
  refine (reduceClause_calm hu (hcs u (by simp))).bind fun _ u' hupdate => ensures_pure ?_
  refine ⟨a', t', u', b.unbraced, rfl, ⟨hsetup.2, htest.2, hupdate.2, hnone⟩, ?_⟩
  simp only [forall_mem_cons, not_mem_nil, false_imp_iff, implies_true, and_true]
  exact ⟨hsetup.1, htest.1, hupdate.1, hb'⟩

theorem forLoop_calm (ha : a.WellShaped) (hu : u.WellShaped) (hb : b.WellShaped)
    (hcs : ∀ c ∈ [a, t, u, b], Calm known S c) :
    Ensures (forLoop m [a, t, u, b]) fun _ loop => Calm known S loop := by
  refine (forLoop_settled ha hu hb hcs).imp ?_
  rintro n loop ⟨a', t', u', b', rfl, hsettled, hcs'⟩
  exact calm_of_eq hsettled.applyRules hcs'

theorem loopSettled_of_calm (ht : (node m .forLoop [a, t, u, b]).WellShaped)
    (h : Calm known S (.node m .forLoop [a, t, u, b])) : LoopSettled a t u b := by
  have hcs := ht.child
  have ha := hcs a (by simp)
  have hu := hcs u (by simp)
  refine (h.still (by simp)).elim ht ?_
  show Ensures (forLoop m [a, t, u, b]) _
  have hloop : Carries known _ id (forLoop m [a, t, u, b]) := forLoop_carries ht
  refine ((hloop.lightens ht).and
    (forLoop_settled ha hu (hcs b (by simp)) h.children)).imp ?_
  rintro n loop ⟨⟨-, hlight⟩, a', t', u', b', rfl, hsettled, -⟩ hn
  cases hlight.same hn
  exact hsettled

theorem whileLoop_calm (hb : b.WellShaped) (ht : Calm known S t) (hcalm : Calm known S b) :
    Ensures (whileLoop m [t, b]) fun _ loop => Calm known S loop := by
  have hempty : (new .empty [] : Tree (Option α)).WellShaped := rfl
  have hnew : Calm known S (new .empty [] : Tree (Option α)) := calm_empty
  have hloop : Ensures (forLoop m [new .empty [], t, new .empty [], b])
      fun _ loop => Calm known S loop := by
    refine forLoop_calm hempty hempty hb ?_
    simp only [forall_mem_cons, not_mem_nil, false_imp_iff, implies_true, and_true]
    exact ⟨hnew, ht, hnew, hcalm⟩
  unfold whileLoop
  exact ensures_lift fun _ _ => ensures_lift fun _ _ => ensures_performThen hloop

/-! ## Statement lists -/

theorem merge_varStatement (ha : a.kind = .varStatement) (hb : b.kind ≠ .varStatement) :
    merge a b = .ok none := by
  obtain ⟨m, k, cs⟩ := a
  obtain ⟨m', k', cs'⟩ := b
  obtain rfl : k = .varStatement := ha
  cases k' <;> first | rfl | exact absurd rfl hb

theorem merge_kind (h : merge a b = .ok (some s)) :
    a.kind = .varStatement ∧ s.tree.kind = .varStatement ∨
      a.kind = .expression ∧ (s.tree.kind = .expression ∨ s.tree.kind = .return ∨
        s.tree.kind = .throw ∨ s.tree.kind = .forLoop) := by
  have hprepend : ∀ {cs : List (Tree (Option α))} {m m' : Option α} {k : Kind}
      {target : Tree (Option α)} {others : List (Tree (Option α))},
      prepend (cs, m) m' k target others = .ok (some s) → s.tree.kind = k := by
    intro cs m m' k target others h
    cases cs with
    | nil => cases h
    | cons value rest =>
      cases h
      rfl
  unfold Step.merge at h
  split at h
  · cases h
    exact .inl ⟨rfl, rfl⟩
  · split at h
    · cases h
      exact .inr ⟨rfl, .inl rfl⟩
    · cases h
  · split at h
    · cases h
    · split at h
      · cases h
      · exact .inr ⟨rfl, .inr (.inl (hprepend h))⟩
  · split at h
    · cases h
    · exact .inr ⟨rfl, .inr (.inr (.inl (hprepend h)))⟩
  · split at h
    · cases h
    · split at h
      · split at h
        · cases h
        · cases h
          exact .inr ⟨rfl, .inr (.inr (.inr rfl))⟩
      · split at h
        · exact .inr ⟨rfl, .inr (.inr (.inr (hprepend h)))⟩
        · cases h
  · cases h

theorem merge_none_of_merge {p : Tree (Option α)} (h : merge a b = .ok (some s))
    (hp : merge p a = .ok none) : merge p s.tree = .ok none := by
  have hkind := merge_kind h
  by_cases hlist : p.kind = .varStatement
  · apply merge_varStatement hlist
    intro hs
    rcases hkind with ⟨ha, -⟩ | ⟨-, hs'⟩
    · obtain ⟨m, k, cs⟩ := p
      obtain ⟨m', k', cs'⟩ := a
      obtain rfl : k = .varStatement := hlist
      obtain rfl : k' = .varStatement := ha
      cases hp
    · rw [hs] at hs'
      simp at hs'
  · by_cases hexpression : p.kind = .expression
    · rcases hkind with ⟨-, hs⟩ | ⟨ha, -⟩
      · obtain ⟨m, k, cs⟩ := p
        obtain ⟨u, d⟩ := s
        obtain ⟨m', k', cs'⟩ := u
        obtain rfl : k = .expression := hexpression
        obtain rfl : k' = .varStatement := hs
        rfl
      · obtain ⟨m, k, cs⟩ := p
        obtain ⟨m', k', cs'⟩ := a
        obtain rfl : k = .expression := hexpression
        obtain rfl : k' = .expression := ha
        match cs, cs', hp with
        | [], _, hp => cases hp
        | _ :: _, [], hp => cases hp
        | _ :: _, _ :: _, hp => cases hp
    · exact merge_of_ne hlist hexpression

structure StatementSettled (known : WellKnown) (S : Prop) (t : Tree (Option α)) : Prop where
  calm : Calm known S t
  nonempty : t.isEmpty = false
  whole : t.isDissolvable = false

theorem discarded_of_calm (hv : v.Fit Kind.isExpression)
    (h : Calm known S (.node m .expression [v])) : v.discarded = .ok .unchanged :=
  discarded_of_still hv (h.still (by simp))

theorem calm_expression (h : v.discarded = .ok .unchanged) (hcalm : Calm known S v) :
    Calm known S (.node m .expression [v]) :=
  calm_of_eq (applyRules_expression h) (by simpa using hcalm)

theorem calm_comma (hx : x.Fit Kind.isExpression) (hx' : x.discarded = .ok .unchanged)
    (hxc : Calm known S x) (hy : y.WellShaped) (hyc : Calm known S y)
    (hne : S → commaParts y ≠ []) : Calm known S (comma x y).tree := by
  obtain ⟨hxne, hwhole⟩ := isWhole_commaParts hx hx'
  refine calm_tidy (fun hS => ?_) (forall_mem_append.mpr ⟨calm_commaParts hxc, calm_commaParts hyc⟩)
  exact isTidy_comma hxne hwhole (hne hS) fun hk => isTidy_of_calm hyc hy hk hS

theorem calm_comma_of_unchanged (hx : x.Fit Kind.isExpression) (hx' : x.discarded = .ok .unchanged)
    (hxc : Calm known S x) (hy : y.Fit Kind.isExpression) (hy' : y.discarded = .ok .unchanged)
    (hyc : Calm known S y) : Calm known S (comma x y).tree :=
  calm_comma hx hx' hxc hy.2 hyc fun _ => (isWhole_commaParts hy hy').1

theorem calm_comma_value {j : Option α} (hx : x.Fit Kind.isExpression)
    (hxc : Calm known S (.node m .expression [x])) (hy : y.Fit Kind.isExpression)
    (hyc : Calm known S (.node j k [y])) (hguard : S → (node j k [y]).Guarded) :
    ∀ c ∈ [(comma x y).tree], Calm known S c := by
  rw [forall_mem_singleton]
  exact calm_comma hx (discarded_of_calm hx hxc) (hxc.children x (by simp)) hy.2
    (hyc.children y (by simp)) fun hS => (guarded_commaParts ((hguard hS).children y (by simp))).1

theorem merge_settled (h : merge a b = .ok (some s)) (ha : a.WellShaped) (hb : b.WellShaped)
    (hguard : S → b.Guarded) (hac : Calm known S a) (hbc : Calm known S b) :
    StatementSettled known S s.tree := by
  unfold Step.merge at h
  split at h
  · cases h
    exact ⟨calm_of_eq rfl (forall_mem_append.mpr ⟨hac.children, hbc.children⟩), rfl, rfl⟩
  · obtain ⟨x, rfl, hx⟩ := (wellShaped_one rfl).mp ha
    obtain ⟨y, rfl, hy⟩ := (wellShaped_one rfl).mp hb
    cases h
    have hx' := discarded_of_calm hx hac
    have hy' := discarded_of_calm hy hbc
    refine ⟨calm_expression (discarded_comma hx hy hx' hy') ?_, rfl, rfl⟩
    exact calm_comma_of_unchanged hx hx' (hac.children x (by simp)) hy hy'
      (hbc.children y (by simp))
  · obtain ⟨x, rfl, hx⟩ := (wellShaped_one rfl).mp ha
    obtain ⟨y, rfl, hy⟩ := (wellShaped_one rfl).mp hb
    dsimp only at h
    split at h
    · cases h
    · cases h
      exact ⟨calm_of_eq rfl (calm_comma_value hx hac hy hbc hguard), rfl, rfl⟩
  · obtain ⟨x, rfl, hx⟩ := (wellShaped_one rfl).mp ha
    obtain ⟨y, rfl, hy⟩ := (wellShaped_one rfl).mp hb
    cases h
    exact ⟨calm_of_eq rfl (calm_comma_value hx hac hy hbc hguard), rfl, rfl⟩
  · obtain ⟨x, rfl, hx⟩ := (wellShaped_one rfl).mp ha
    have hx' := discarded_of_calm hx hac
    have hxc := hac.children x (by simp)
    obtain ⟨setup, t, u, body, rfl, hsetup, -⟩ := (wellShaped_four rfl).mp hb
    have hloop := loopSettled_of_calm hb hbc
    have hcs := hbc.children
    simp only [children_node, forall_mem_cons] at hcs
    obtain ⟨hsetupc, hothers⟩ := hcs
    dsimp only at h
    split at h
    · cases h
      refine ⟨calm_of_eq ?_ (forall_mem_cons.mpr ⟨hxc, ?_⟩), rfl, rfl⟩
      · exact LoopSettled.applyRules ⟨fun _ => hx', hloop.test, hloop.update, hloop.body⟩
      · simpa only [forall_mem_cons] using hothers
    · split at h
      · rename_i hk
        cases h
        have hy' := hloop.setup hk
        refine ⟨calm_of_eq ?_ (forall_mem_cons.mpr ⟨?_, ?_⟩), rfl, rfl⟩
        · refine LoopSettled.applyRules ⟨fun _ => ?_, hloop.test, hloop.update, hloop.body⟩
          exact discarded_comma hx ⟨hk, hsetup.2⟩ hx' hy'
        · exact calm_comma_of_unchanged hx hx' hxc ⟨hk, hsetup.2⟩ hy' hsetupc
        · simpa only [forall_mem_cons] using hothers
      · cases h
  · cases h

theorem spliceBlocks_calm : ∀ {cs : List (Tree (Option α))},
    (∀ c ∈ cs, c.WellShaped ∧ Calm known S c) →
    Ensures (spliceBlocks cs) fun _ cs' => ∀ c ∈ cs', StatementSettled known S c
  | [], _ => ensures_pure (by simp)
  | c :: cs, h => by
    obtain ⟨hshape, hcalm⟩ := h c (.head _)
    have ih := spliceBlocks_calm fun c hc => h c (.tail _ hc)
    unfold spliceBlocks
    split
    · exact ensures_release (ensures_noteChange ih)
    · rename_i hempty
      split
      · rename_i hblock
        refine ensures_release (ensures_noteChange (ih.bind fun _ cs' h' => ensures_pure ?_))
        refine forall_mem_append.mpr ⟨fun d hd => ?_, h'⟩
        have hk := isBlock_of_isDissolvable hblock
        obtain ⟨m, k, ds⟩ := c
        obtain rfl : k = .block := hk
        have hsettled := settled_of_still rfl hshape (hcalm.still (by simp)) d hd
        exact ⟨hcalm.children d hd, hsettled.1, hsettled.2⟩
      · rename_i hblock
        refine ih.bind fun _ cs' h' => ensures_pure (forall_mem_cons.mpr ⟨?_, h'⟩)
        exact ⟨hcalm, by simpa using hempty, by simpa using hblock⟩

def Apart (a b : Tree (Option α)) : Prop := merge a b = .ok none

theorem spliceBlocks_of_settled : ∀ {cs : List (Tree (Option α))},
    (∀ c ∈ cs, StatementSettled known S c) → spliceBlocks cs = pure cs
  | [], _ => rfl
  | c :: cs, h => by
    have hc := h c (.head _)
    have ih := spliceBlocks_of_settled fun c hc => h c (.tail _ hc)
    rw [spliceBlocks, if_neg (by simp [hc.nonempty]), if_neg (by simp [hc.whole]), ih, pure_bind]

theorem mergeFrom_of_apart : ∀ {cs : List (Tree (Option α))} {a : Tree (Option α)},
    (a :: cs).IsChain Apart → mergeFrom a cs = pure (a :: cs)
  | [], _, _ => rfl
  | b :: cs, a, h => by
    rw [isChain_cons_cons] at h
    rw [mergeFrom, h.1, lift_ok_bind]
    dsimp only
    rw [mergeFrom_of_apart h.2, pure_bind]

theorem statements_of_settled (h : ∀ c ∈ cs, StatementSettled known S c)
    (hchain : cs.IsChain Apart) : statements m k cs = pure (.node m k cs) := by
  have hmerge : mergeNeighbours cs = pure cs := by
    cases cs with
    | nil => rfl
    | cons a cs => exact mergeFrom_of_apart hchain
  rw [statements, spliceBlocks_of_settled h, pure_bind, hmerge, pure_bind]

theorem mergeFrom_settled : ∀ (rest : List (Tree (Option α))) (a : Tree (Option α)),
    (node none .block (a :: rest)).WellShaped →
    (S → (node none .block (a :: rest)).Guarded) →
    (∀ c ∈ a :: rest, StatementSettled known S c) →
    Ensures (mergeFrom a rest) fun _ cs' => (∀ c ∈ cs', StatementSettled known S c) ∧
      ∃ head tail, cs' = head :: tail ∧ (head :: tail).IsChain Apart ∧ ∀ p, Apart p a → Apart p head
  | [], a, _, _, hsettled =>
    ensures_pure ⟨hsettled, a, [], rfl, .singleton a, fun _ h => h⟩
  | b :: rest, a, h, hguard, hsettled => by
    have hcs := h.child
    obtain ⟨o, ho, hrule⟩ := merge_total (hcs a (by simp)) (hcs b (by simp))
    unfold mergeFrom
    refine ensures_lift fun o' ho' => ?_
    obtain rfl : o = o' := Except.ok.inj (ho.symm.trans ho')
    cases o with
    | some s =>
      have hstep : Rewrites known (.node none .block (a :: b :: rest))
          ⟨.node none .block (s.tree :: rest), s.detached⟩ := hrule s rfl _ none .block [] rest rfl
      have hs : StatementSettled known S s.tree :=
        merge_settled ho (hcs a (by simp)) (hcs b (by simp))
          (fun hS => (hguard hS).children b (by simp)) (hsettled a (by simp)).calm
          (hsettled b (by simp)).calm
      refine ensures_performThen ?_
      refine (mergeFrom_settled rest s.tree (hstep.wellShaped h).1
        (fun hS => hstep.guarded h (hguard hS)) ?_).imp ?_
      · exact forall_mem_cons.mpr
          ⟨hs, fun c hc => hsettled c (mem_cons_of_mem _ (.tail _ hc))⟩
      · rintro n cs' ⟨hcs', head, tail, rfl, hchain, hhead⟩
        exact ⟨hcs', head, tail, rfl, hchain, fun p hp => hhead p (merge_none_of_merge ho hp)⟩
    | none =>
      have hfit := (wellShaped_of_element rfl).mp h
      have hshape : (node none .block (b :: rest)).WellShaped :=
        (wellShaped_of_element rfl).mpr fun c hc => hfit c (.tail _ hc)
      have hrest : S → (node none .block (b :: rest)).Guarded := fun hS =>
        (guarded_list rfl).mpr fun c hc => (hguard hS).children c (.tail _ hc)
      refine (mergeFrom_settled rest b hshape hrest fun c hc =>
        hsettled c (.tail _ hc)).bind ?_
      rintro n cs' ⟨hcs', head, tail, rfl, hchain, hhead⟩
      refine ensures_pure ⟨forall_mem_cons.mpr ⟨hsettled a (by simp), hcs'⟩,
        a, head :: tail, rfl, ?_, fun _ hp => hp⟩
      exact isChain_cons_cons.mpr ⟨hhead a ho, hchain⟩

theorem statements_calm (hk : k.isList) (ht : (node m k cs).WellShaped)
    (hguard : S → (node m k cs).Guarded) (hcs : ∀ c ∈ cs, Calm known S c) :
    Ensures (statements m k cs) fun _ t => Calm known S t := by
  have hshape := wellShaped_block hk ht
  have hguard' : S → (node (none : Option α) .block cs).Guarded := fun hS =>
    (guarded_list rfl).mpr (hguard hS).children
  have hsplice : Carries known (.node none .block cs) (.node none .block) (spliceBlocks cs) :=
    spliceBlocks_carries rfl cs []
  have hcalm := spliceBlocks_calm (S := S) fun c hc =>
    ⟨ht.child c hc, hcs c hc⟩
  unfold statements
  refine (hcalm.and (hsplice.ready hshape hguard')).bind ?_
  rintro n cs' ⟨hsettled, hshape', hguard'⟩
  have hmerge : Ensures (mergeNeighbours cs') fun _ cs'' =>
      (∀ c ∈ cs'', StatementSettled known S c) ∧ cs''.IsChain Apart := by
    cases cs' with
    | nil => exact ensures_pure ⟨by simp, .nil⟩
    | cons a rest =>
      refine (mergeFrom_settled rest a hshape' hguard' hsettled).imp ?_
      rintro n cs'' ⟨hcs'', head, tail, rfl, hchain, -⟩
      exact ⟨hcs'', hchain⟩
  refine hmerge.bind fun _ cs'' h => ensures_pure (calm_of_eq ?_ fun c hc => (h.1 c hc).calm)
  rw [applyRules_list hk]
  exact statements_of_settled h.1 h.2

end Simplifying

end ScriptPress
