import ScriptPress.Proofs.Meaning.Basic

/-! # Laws of evaluation and execution -/

namespace ScriptPress

open ExceptT

variable {β γ ω σ : Type} {e : Evaluation ω σ β} (body : Execution ω σ Unit)

def Reads (e : Evaluation ω σ β) : Prop :=
  ∃ f : σ → β, e = (get >>= fun s => pure (f s))

theorem reads_pure (b : β) : Reads (pure b : Evaluation ω σ β) :=
  ⟨fun _ => b, rfl⟩

theorem reads_get (f : σ → β) : Reads (get >>= fun s => pure (f s) : Evaluation ω σ β) :=
  ⟨f, rfl⟩

theorem Reads.map (h : Reads e) (g : β → γ) : Reads (e >>= fun b => pure (g b)) := by
  obtain ⟨f, rfl⟩ := h
  exact ⟨fun s => g (f s), by simp only [bind_assoc, pure_bind]⟩

theorem Reads.discard (h : Reads e) (k : Evaluation ω σ γ) : (e >>= fun _ => k) = k := by
  obtain ⟨f, rfl⟩ := h
  rw [bind_assoc]
  rfl

namespace Execution

theorem ofEvaluation_pure (b : β) : ofEvaluation (pure b : Evaluation ω σ β) = pure b :=
  rfl

theorem run_ofEvaluation_ok {s s' : σ} {b : β} (h : e.run.run s = (.ok b, s')) :
    (ofEvaluation e).run.run s = some (.ok b, s') := by
  unfold ofEvaluation
  simp only [run_mk, StateT.run]
  rw [show e.run s = (.ok b, s') from h]

theorem run_ofEvaluation_error {s s' : σ} {v : Value ω} (h : e.run.run s = (.error v, s')) :
    (ofEvaluation e).run.run s = some (.error (.throw v), s') := by
  unfold ofEvaluation
  simp only [run_mk, StateT.run]
  rw [show e.run s = (.error v, s') from h]

theorem ofEvaluation_bind (e : Evaluation ω σ β) (f : β → Evaluation ω σ γ) :
    ofEvaluation (e >>= f) = ofEvaluation e >>= fun b => ofEvaluation (f b) := by
  apply ext
  apply StateT.ext
  intro s
  rw [run_bind, StateT.run_bind]
  rcases he : e.run.run s with ⟨v | b, s'⟩
  · have hbind : (e >>= f).run.run s = (.error v, s') := by
      rw [run_bind, StateT.run_bind, he]
      rfl
    rw [run_ofEvaluation_error he, run_ofEvaluation_error hbind]
    rfl
  · have hbind : (e >>= f).run.run s = (f b).run.run s' := by
      rw [run_bind, StateT.run_bind, he]
      rfl
    rw [run_ofEvaluation_ok he]
    rcases hf : (f b).run.run s' with ⟨v | c, s''⟩
    · rw [run_ofEvaluation_error (hbind.trans hf)]
      exact (run_ofEvaluation_error hf).symm
    · rw [run_ofEvaluation_ok (hbind.trans hf)]
      exact (run_ofEvaluation_ok hf).symm

theorem handled_throw : handled body (fun v => throw (.throw v)) = body := by
  apply ext
  show (body.run >>= fun c => _) = body.run
  refine Eq.trans (congrArg _ (funext fun c => ?_)) (bind_pure _)
  rcases c with (_ | _ | _ | _) | _ <;> rfl

theorem handled_pure (handler : Value ω → Execution ω σ Unit) :
    handled (pure ()) handler = pure () :=
  rfl

theorem ensured_pure : ensured body (pure ()) = body := by
  apply ext
  show (body.run >>= fun c => _) = body.run
  exact bind_pure _

theorem pure_ensured (finalizer : Execution ω σ Unit) :
    ensured (pure ()) finalizer = finalizer := by
  apply ext
  show ((pure () : Execution ω σ Unit).run >>= fun c => finalizer.run >>= fun d => _) =
    finalizer.run
  rw [run_pure, pure_bind]
  refine Eq.trans (congrArg _ (funext fun d => ?_)) (bind_pure _)
  cases d <;> rfl

end Execution

end ScriptPress
