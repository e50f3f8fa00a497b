import Downhill.Graph.Pool

/-!
# Runs that may fail

What can be said of work on a state, whether on a pool or on a session, that ends with a result or
an error. `Runs` is about the state it leaves either way and about the result; `Atomic` says that a
failure leaves the state as it was. A sequence is atomic if only its last part that can fail comes
after a change (`Atomic.bind`), or if nothing can fail after the first change (`Atomic.bind_ok`).
-/

namespace Downhill

variable {ε σ β γ δ : Type} {s t : σ} {b : ExceptT ε (StateM σ) β}
  {f : β → ExceptT ε (StateM σ) γ}

theorem run_bind_of_ok (H : b.run s = (.ok v, t)) : (b >>= f).run s = (f v).run t := by
  have H' : b s = (.ok v, t) := H
  change (let r := b s; ExceptT.bindCont f r.1 r.2) = _
  rw [H']
  rfl

theorem run_bind_of_error (H : b.run s = (.error e, t)) : (b >>= f).run s = (.error e, t) := by
  have H' : b s = (.error e, t) := H
  change (let r := b s; ExceptT.bindCont f r.1 r.2) = _
  rw [H']
  rfl

/-! ## States that work leads to -/

/-- A relation that leads to states which may stay as they are. -/
class Progress (R : σ → σ → Prop) : Prop where
  trans : ∀ {s t u}, R s t → R t u → R s u
  rest : ∀ {s t}, R s t → R t t

/-- What work does, begun in a given state: it leads to states in a relation to the first one. -/
structure Runs (R : σ → σ → Prop) (s : σ) (b : ExceptT ε (StateM σ) β) (Q : β → σ → Prop) :
    Prop where
  leads : R s (b.run s).2
  result : ∀ {v}, (b.run s).1 = .ok v → Q v (b.run s).2

namespace Runs

variable {R : σ → σ → Prop} {Q : β → σ → Prop} {P : γ → σ → Prop}

theorem of_ok (H : b.run s = (.ok v, t)) (hR : R s t) (hv : Q v t) : Runs R s b Q := by
  refine ⟨by rwa [H], ?_⟩
  intro w hw
  rw [H] at hw ⊢
  cases hw
  exact hv

theorem of_error (H : b.run s = (.error e, t)) (hR : R s t) : Runs R s b Q := by
  refine ⟨by rwa [H], ?_⟩
  intro w hw
  rw [H] at hw
  cases hw

theorem pure (hR : R s s) (H : Q v s) :
    Runs R s (Pure.pure v : ExceptT ε (StateM σ) β) Q := of_ok rfl hR H

theorem throw (hR : R s s) : Runs R s (throw e : ExceptT ε (StateM σ) β) Q := of_error rfl hR

theorem ok (H : Runs R s b Q) (hr : b.run s = (.ok v, t)) : R s t ∧ Q v t := by
  have hR := H.leads
  have hv := H.result (v := v)
  rw [hr] at hR hv
  exact ⟨hR, hv rfl⟩

theorem error (H : Runs R s b Q) (hr : b.run s = (.error e, t)) : R s t := by
  have hR := H.leads
  rwa [hr] at hR

theorem bind [Progress R] (H : Runs R s b Q) (H' : ∀ {v t}, R s t → Q v t → Runs R t (f v) P) :
    Runs R s (b >>= f) P := by
  rcases hb : b.run s with ⟨e | v, t⟩
  · exact of_error (run_bind_of_error hb) (H.error hb)
  · obtain ⟨hR, hv⟩ := H.ok hb
    have Hf := H' hR hv
    rcases hf : (f v).run t with ⟨e | w, u⟩
    · exact of_error ((run_bind_of_ok hb).trans hf) (Progress.trans hR (Hf.error hf))
    · obtain ⟨hR', hw⟩ := Hf.ok hf
      exact of_ok ((run_bind_of_ok hb).trans hf) (Progress.trans hR hR') hw

theorem mapM [Progress R] {g : δ → ExceptT ε (StateM σ) β} (l : List δ) (hR : R s s)
    (H : ∀ x ∈ l, ∀ {t}, R s t → Runs R t (g x) Q) (hQ : ∀ {v t u}, Q v t → R t u → Q v u) :
    Runs R s (l.mapM g) fun vs t => ∀ v ∈ vs, Q v t := by
  induction l generalizing s with
  | nil => exact pure hR (by simp)
  | cons x l ih =>
    rw [List.mapM_cons]
    refine (H x List.mem_cons_self hR).bind fun hst hv => ?_
    have rest : ∀ y ∈ l, ∀ {u}, R _ u → Runs R u (g y) Q := fun y hy _ hu =>
      H y (List.mem_cons_of_mem _ hy) (Progress.trans hst hu)
    refine (ih (Progress.rest hst) rest).bind fun htu hvs => ?_
    exact pure (Progress.rest htu) (List.forall_mem_cons.mpr ⟨hQ hv htu, hvs⟩)

theorem get_bind {f : σ → ExceptT ε (StateM σ) γ} (H : Runs R s (f s) P) :
    Runs R s (get >>= f) P := ⟨H.leads, H.result⟩

end Runs

/-! ## Failures without a trace -/

/-- A failure leaves the state as it was. -/
def Atomic (s : σ) (b : ExceptT ε (StateM σ) β) : Prop :=
  ∀ e t, b.run s = (.error e, t) → t = s

/-- Work that only looks at the state. -/
def Quiet (b : ExceptT ε (StateM σ) β) : Prop := ∀ s, (b.run s).2 = s

namespace Quiet

theorem run (H : Quiet b) (hr : b.run s = r) : r.2 = s := hr ▸ H s

theorem pure (v : β) : Quiet (Pure.pure v : ExceptT ε (StateM σ) β) := fun _ => rfl

theorem throw (e : ε) : Quiet (throw e : ExceptT ε (StateM σ) β) := fun _ => rfl

theorem get : Quiet (get : ExceptT ε (StateM σ) σ) := fun _ => rfl

theorem bind (H : Quiet b) (H' : ∀ v, Quiet (f v)) : Quiet (b >>= f) := by
  intro s
  rcases hb : b.run s with ⟨e | v, t⟩
  · rw [run_bind_of_error hb]
    exact H.run hb
  · rw [run_bind_of_ok hb, H' v t]
    exact H.run hb

theorem mapM {g : δ → ExceptT ε (StateM σ) β} (H : ∀ x, Quiet (g x)) (l : List δ) :
    Quiet (l.mapM g) := by
  induction l with
  | nil => exact .pure []
  | cons x l ih =>
    rw [List.mapM_cons]
    exact .bind (H x) fun _ => .bind ih fun _ => .pure _

theorem forM {g : δ → ExceptT ε (StateM σ) PUnit} (H : ∀ x, Quiet (g x)) (l : List δ) :
    Quiet (l.forM g) := by
  induction l with
  | nil => exact .pure _
  | cons x l ih => exact .bind (H x) fun _ => ih

end Quiet

/-- Work that only looks is judged by its result. -/
theorem Runs.of_quiet {R : σ → σ → Prop} {Q : β → σ → Prop} (H : Quiet b) (hR : R s s)
    (hQ : ∀ {v}, b.run s = (.ok v, s) → Q v s) : Runs R s b Q := by
  rcases hb : b.run s with ⟨e | v, t⟩
  · exact of_error hb (H.run hb ▸ hR)
  · cases H.run hb
    exact of_ok hb hR (hQ hb)

namespace Atomic

theorem of_quiet (H : Quiet b) (s : σ) : Atomic s b := fun _ _ hr => H.run hr

theorem of_ok (H : b.run s = (.ok v, t)) : Atomic s b := by
  intro e u he
  cases H.symm.trans he

theorem bind (H : Quiet b) (H' : ∀ v, b.run s = (.ok v, s) → Atomic s (f v)) :
    Atomic s (b >>= f) := by
  intro e u he
  rcases hb : b.run s with ⟨e' | v, t⟩
  · cases (run_bind_of_error hb).symm.trans he
    exact H.run hb
  · cases H.run hb
    rw [run_bind_of_ok hb] at he
    exact H' v hb e u he

/-- After a first part that succeeds: it changed nothing, or nothing fails any more. -/
theorem bind_run (H : b.run s = (.ok v, t))
    (H' : (t = s ∧ Atomic s (f v)) ∨ ∃ w u, (f v).run t = (.ok w, u)) : Atomic s (b >>= f) := by
  intro e u he
  rw [run_bind_of_ok H] at he
  rcases H' with ⟨rfl, hf⟩ | ⟨w, r, hf⟩
  · exact hf e u he
  · cases hf.symm.trans he

/-- Nothing fails after the first part. -/
theorem bind_ok (H : Atomic s b)
    (H' : ∀ v t, b.run s = (.ok v, t) → ∃ w u, (f v).run t = (.ok w, u)) : Atomic s (b >>= f) := by
  intro e u he
  rcases hb : b.run s with ⟨e' | v, t⟩
  · cases (run_bind_of_error hb).symm.trans he
    exact H e u hb
  · obtain ⟨w, r, hf⟩ := H' v t hb
    cases ((run_bind_of_ok hb).trans hf).symm.trans he

end Atomic

end Downhill
