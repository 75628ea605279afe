import PosixIpc.Framework.Prog

/-!
# Postconditions of programs

`Runs exec p s Q`: the uninterrupted execution of `p` from `s` completes, and its result and final
state satisfy `Q`. The rules follow the constructors of programs and their composition, so that a
specification is proved by walking through the program once. Executions are deterministic: a
completed execution satisfies every postcondition that was proved (`Runs.post`).

`Ensures exec p s Q` is the variant without termination: if the execution completes, then in `Q`.
-/

namespace Framework

variable {Op : Type} {Ret : Op → Type} {α β σ : Type}

/-- The execution of `p` from `s` completes in `Q`. -/
def Runs (exec : (o : Op) → σ → Option (Ret o × σ)) (p : Prog Ret α) (s : σ)
    (Q : α → σ → Prop) : Prop :=
  ∃ a s', p.run exec s = some (a, s') ∧ Q a s'

namespace Runs

variable {exec : (o : Op) → σ → Option (Ret o × σ)} {s : σ} {Q : α → σ → Prop}

theorem ret {a : α} (h : Q a s) : Runs exec (.ret a) s Q := ⟨a, s, rfl, h⟩

/-- One step, and the rest of the program. -/
theorem step {o : Op} {k : Ret o → Prog Ret α} {r : Ret o} {s' : σ}
    (he : exec o s = some (r, s')) (h : Runs exec (k r) s' Q) : Runs exec (.step o k) s Q := by
  obtain ⟨a, t, hr, hQ⟩ := h
  exact ⟨a, t, by rw [Prog.run_step he]; exact hr, hQ⟩

/-- **Composition.** What the first program leaves is what the second one starts from. -/
theorem bind {p : Prog Ret α} {f : α → Prog Ret β} {Q : β → σ → Prop}
    (h : Runs exec p s fun a s' => Runs exec (f a) s' Q) : Runs exec (p >>= f) s Q := by
  obtain ⟨a, s', hp, b, t, hf, hQ⟩ := h
  refine ⟨b, t, ?_, hQ⟩
  rw [Prog.run_bind, hp]
  exact hf

theorem mono {p : Prog Ret α} {Q' : α → σ → Prop} (h : Runs exec p s Q)
    (hQ : ∀ a s', Q a s' → Q' a s') : Runs exec p s Q' := by
  obtain ⟨a, s', hr, hq⟩ := h
  exact ⟨a, s', hr, hQ a s' hq⟩

/-- A completed execution. -/
theorem of_run {p : Prog Ret α} {a : α} {s' : σ} (hr : p.run exec s = some (a, s')) (h : Q a s') :
    Runs exec p s Q :=
  ⟨a, s', hr, h⟩

/-- What holds of the result holds of any completed execution. -/
theorem post {p : Prog Ret α} (h : Runs exec p s Q) {a : α} {s' : σ}
    (hr : p.run exec s = some (a, s')) : Q a s' := by
  obtain ⟨b, t, hr', hQ⟩ := h
  obtain ⟨rfl, rfl⟩ := Prod.mk.inj (Option.some.inj (hr.symm.trans hr'))
  exact hQ

/-- Two specifications of one program. -/
theorem and {p : Prog Ret α} {Q' : α → σ → Prop} (h : Runs exec p s Q) (h' : Runs exec p s Q') :
    Runs exec p s fun a s' => Q a s' ∧ Q' a s' := by
  obtain ⟨a, s', hr, hQ⟩ := h
  exact ⟨a, s', hr, hQ, h'.post hr⟩

/-- A postcondition that comes to a condition on the start. -/
theorem iff_of {p : Prog Ret α} {H : Prop} (h : Runs exec p s fun a s' => (Q a s' ↔ H)) :
    Runs exec p s Q ↔ H := by
  obtain ⟨a, s', hr, hQ⟩ := h
  exact ⟨fun hp => hQ.mp (hp.post hr), fun hH => ⟨a, s', hr, hQ.mpr hH⟩⟩

end Runs

/-- If the execution of `p` from `s` completes, then in `Q`. -/
def Ensures (exec : (o : Op) → σ → Option (Ret o × σ)) (p : Prog Ret α) (s : σ)
    (Q : α → σ → Prop) : Prop :=
  ∀ a s', p.run exec s = some (a, s') → Q a s'

namespace Ensures

variable {exec : (o : Op) → σ → Option (Ret o × σ)} {s : σ} {Q : α → σ → Prop}

theorem ret {a : α} (h : Q a s) : Ensures exec (.ret a) s Q := by
  intro b s' hr
  obtain ⟨rfl, rfl⟩ := Prod.mk.inj (Option.some.inj hr)
  exact h

/-- One step, whatever it answers, and the rest of the program. -/
theorem step {o : Op} {k : Ret o → Prog Ret α}
    (h : ∀ r s', exec o s = some (r, s') → Ensures exec (k r) s' Q) :
    Ensures exec (.step o k) s Q := by
  intro a t hr
  obtain ⟨⟨r, s'⟩, he, hk⟩ := Prog.of_run_step hr
  exact h r s' he a t hk

/-- **Composition.** -/
theorem bind {p : Prog Ret α} {f : α → Prog Ret β} {Q : β → σ → Prop}
    (h : Ensures exec p s fun a s' => Ensures exec (f a) s' Q) : Ensures exec (p >>= f) s Q := by
  intro b t hr
  rw [Prog.run_bind] at hr
  obtain ⟨⟨a, s'⟩, hp, hf⟩ := Option.bind_eq_some_iff.mp hr
  exact h a s' hp b t hf

theorem mono {p : Prog Ret α} {Q' : α → σ → Prop} (h : Ensures exec p s Q)
    (hQ : ∀ a s', Q a s' → Q' a s') : Ensures exec p s Q' :=
  fun a s' hr => hQ a s' (h a s' hr)

theorem and {p : Prog Ret α} {Q' : α → σ → Prop} (h : Ensures exec p s Q)
    (h' : Ensures exec p s Q') : Ensures exec p s fun a s' => Q a s' ∧ Q' a s' :=
  fun a s' hr => ⟨h a s' hr, h' a s' hr⟩

/-- A program whose steps all preserve an assertion. -/
theorem of_all {I : σ → Prop} {P : Op → Prop}
    (hI : ∀ o, P o → ∀ s r s', exec o s = some (r, s') → I s → I s') {p : Prog Ret α}
    {V : α → Prop} (h : p.All P V) (hs : I s) : Ensures exec p s fun a s' => V a ∧ I s' :=
  fun _ _ hr => h.of_run hI hr hs

end Ensures

/-- A program that completes with a postcondition ensures it. -/
theorem Runs.ensures {exec : (o : Op) → σ → Option (Ret o × σ)} {p : Prog Ret α} {s : σ}
    {Q : α → σ → Prop} (h : Runs exec p s Q) : Ensures exec p s Q :=
  fun _ _ hr => h.post hr

end Framework
