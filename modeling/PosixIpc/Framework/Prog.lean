import Mathlib.Logic.Relation

/-!
# Programs as sequences of atomic steps

A sequential program over a signature of atomic steps is a tree: it returns a value, or it
performs a step `o` and continues with the step's result. One and the same tree is read in two
ways.

* `Prog.run` executes it without interruption on a state. The meaning of the steps is a partial
  function `exec`; `none` is a fault (a failed assertion, an access outside the memory).
* `Sustains` is what a proof about *interleaved* execution needs. `Sustains exec R G Q p s` says
  that, from `s`, every remaining step of `p` is fault free and respects the guarantee `G`, and
  that `p` ends in `Q`, whatever the environment does between two steps as long as it respects
  the rely `R`.

`Abides` is the variant without progress: the steps that are taken respect the guarantee, but a step
may also fault, and then that is the end of the program.

`Prog.iterate` is a loop with a bound on the number of rounds; the body answers `none` to go
round once more.
-/

namespace Framework

/-- A program over steps `Op` with results `Ret`: a result, or one step and a continuation. -/
inductive Prog {Op : Type} (Ret : Op → Type) (α : Type) : Type where
  | ret (a : α) : Prog Ret α
  | step (o : Op) (k : Ret o → Prog Ret α) : Prog Ret α

namespace Prog

variable {Op : Type} {Ret : Op → Type} {α β σ : Type}

/-- Sequential composition. -/
def bind : Prog Ret α → (α → Prog Ret β) → Prog Ret β
  | .ret a, f => f a
  | .step o k, f => .step o (fun r => (k r).bind f)

instance : Monad (Prog Ret) where
  pure := .ret
  bind := Prog.bind

@[simp] theorem pure_eq (a : α) : (pure a : Prog Ret α) = .ret a := rfl

@[simp] theorem ret_bind (a : α) (f : α → Prog Ret β) : (Prog.ret a >>= f) = f a := rfl

@[simp] theorem step_bind (o : Op) (k : Ret o → Prog Ret α) (f : α → Prog Ret β) :
    (Prog.step o k >>= f) = .step o (fun r => k r >>= f) := rfl

/-- Composition is associative, so programs can be cut anywhere. -/
theorem bind_assoc {γ : Type} (p : Prog Ret α) (f : α → Prog Ret β) (g : β → Prog Ret γ) :
    (p >>= f >>= g) = p >>= fun a => f a >>= g := by
  induction p with
  | ret a => rfl
  | step o k ih => exact congrArg (Prog.step o) (funext ih)

/-- Uninterrupted execution; `none` is a fault. -/
def run (exec : (o : Op) → σ → Option (Ret o × σ)) : Prog Ret α → σ → Option (α × σ)
  | .ret a, s => some (a, s)
  | .step o k, s =>
    match exec o s with
    | none => none
    | some (r, s') => (k r).run exec s'

/-- The steps an uninterrupted execution performs, a faulting step included. -/
def trace (exec : (o : Op) → σ → Option (Ret o × σ)) : Prog Ret α → σ → List Op
  | .ret _, _ => []
  | .step o k, s =>
    o :: match exec o s with
      | none => []
      | some (r, s') => (k r).trace exec s'

/-- A loop of at most `n` rounds. The body answers `none` to go round again; a loop that is still
going round after `n` rounds answers `none`. -/
def iterate (body : Prog Ret (Option α)) : Nat → Prog Ret (Option α)
  | 0 => .ret none
  | n + 1 => do
    match ← body with
    | some a => return some a
    | none => iterate body n

/-- Whatever the steps answer, the program returns after at most `n` of them. -/
def Within : Nat → Prog Ret α → Prop
  | _, .ret _ => True
  | 0, .step _ _ => False
  | n + 1, .step _ k => ∀ r, Within n (k r)

theorem within_ret (n : Nat) (a : α) : (Prog.ret a : Prog Ret α).Within n := by
  cases n <;> exact trivial

/-- One step less. -/
theorem Within.next {n : Nat} {o : Op} {k : Ret o → Prog Ret α} (h : (Prog.step o k).Within n)
    (r : Ret o) : (k r).Within (n - 1) := by
  cases n with
  | zero => exact h.elim
  | succ n => exact h r

theorem Within.mono {n m : Nat} (hnm : n ≤ m) {p : Prog Ret α} (h : p.Within n) : p.Within m := by
  -- the bounds are counted down together, along the program
  induction p generalizing n m with
  | ret a => exact within_ret m a
  | step o k ih =>
    cases n with
    | zero => exact h.elim
    | succ n =>
      cases m with
      | zero => exact absurd hnm (Nat.not_succ_le_zero n)
      | succ m => exact fun r => ih r (Nat.le_of_succ_le_succ hnm) (h r)

/-- Mapping the result costs no step. -/
theorem Within.map {n : Nat} {p : Prog Ret α} (h : p.Within n) (f : α → β) :
    (p >>= fun a => .ret (f a)).Within n := by
  induction p generalizing n with
  | ret a => exact within_ret n (f a)
  | step o k ih =>
    cases n with
    | zero => exact h.elim
    | succ n => exact fun r => ih r (h r)

variable {exec : (o : Op) → σ → Option (Ret o × σ)}

@[simp] theorem run_ret (a : α) (s : σ) : (Prog.ret a : Prog Ret α).run exec s = some (a, s) := rfl

/-- A step that does not fault is followed by the rest of the program. -/
theorem run_step {o : Op} {k : Ret o → Prog Ret α} {s s' : σ} {r : Ret o}
    (h : exec o s = some (r, s')) : (Prog.step o k).run exec s = (k r).run exec s' := by
  simp only [run, h]

/-- A step that faults is the end of the run. -/
theorem run_step_none {o : Op} {k : Ret o → Prog Ret α} {s : σ}
    (h : exec o s = none) : (Prog.step o k).run exec s = none := by
  simp only [run, h]

/-- Inversion of a completed run: its first step did not fault, and the rest completed. -/
theorem of_run_step {o : Op} {k : Ret o → Prog Ret α} {s : σ} {x : α × σ}
    (h : (Prog.step o k).run exec s = some x) :
    ∃ y, exec o s = some y ∧ (k y.1).run exec y.2 = some x := by
  cases he : exec o s with
  | none => rw [run_step_none he] at h; exact absurd h (by simp)
  | some y => exact ⟨y, rfl, by rw [run_step he] at h; exact h⟩

/-- **Sequential composition runs in sequence.** -/
theorem run_bind (p : Prog Ret α) (f : α → Prog Ret β) (s : σ) :
    (p >>= f).run exec s = (p.run exec s).bind (fun x => (f x.1).run exec x.2) := by
  induction p generalizing s with
  | ret a => rfl
  | step o k ih =>
    rw [step_bind]
    cases h : exec o s with
    | none => rw [run_step_none h, run_step_none h]; rfl
    | some x =>
      obtain ⟨r, s'⟩ := x
      rw [run_step h, run_step h]
      exact ih r s'

/-- A run with more state than it needs is a run without it. -/
theorem run_project {τ : Type} {exec' : (o : Op) → τ → Option (Ret o × τ)} {π : σ → τ}
    (hπ : ∀ o s r s', exec o s = some (r, s') → exec' o (π s) = some (r, π s'))
    {p : Prog Ret α} {s s' : σ} {a : α} (h : p.run exec s = some (a, s')) :
    p.run exec' (π s) = some (a, π s') := by
  induction p generalizing s with
  | ret b =>
    obtain ⟨rfl, rfl⟩ := Prod.mk.inj (Option.some.inj h)
    rfl
  | step o k ih =>
    obtain ⟨⟨r, t⟩, he, hk⟩ := of_run_step h
    rw [run_step (hπ o s r t he)]
    exact ih r hk

/-- A program that runs to completion performed only steps that do not fault. -/
theorem exec_isSome_of_mem_trace {p : Prog Ret α} {s : σ} {x : α × σ}
    (h : p.run exec s = some x) : ∀ o ∈ p.trace exec s, ∃ t, (exec o t).isSome := by
  induction p generalizing s with
  | ret a => intro o ho; exact absurd ho List.not_mem_nil
  | step o k ih =>
    intro o' ho'
    obtain ⟨⟨r, s'⟩, he, hk⟩ := of_run_step h
    simp only [trace, he, List.mem_cons] at ho'
    rcases ho' with rfl | ho'
    · exact ⟨s, by rw [he]; rfl⟩
    · exact ih r hk o' ho'

/-- The first round of a loop decides whether there are others. -/
theorem run_iterate_succ (body : Prog Ret (Option α)) (n : Nat) (s : σ) :
    (iterate body (n + 1)).run exec s =
      (body.run exec s).bind fun x =>
        match x.1 with
        | some a => some (some a, x.2)
        | none => (iterate body n).run exec x.2 := by
  rw [iterate, run_bind]
  congr 1
  funext x
  cases x.1 <;> rfl

end Prog

/-! ### Interference -/

section Sustains

variable {Op : Type} {Ret : Op → Type} {α σ : Type}

/-- `p` can be carried on from `s` under interference: wherever the environment, moving along
`R`, has taken the state to, the next step does not fault, respects `G`, and leaves a program
that can be carried on; a returned value satisfies `Q`. -/
def Sustains (exec : (o : Op) → σ → Option (Ret o × σ)) (R G : σ → σ → Prop)
    (Q : α → σ → Prop) : Prog Ret α → σ → Prop
  | .ret a, s => ∀ t, R s t → Q a t
  | .step o k, s => ∀ t, R s t → ∃ r t', exec o t = some (r, t') ∧ G t t' ∧
      Sustains exec R G Q (k r) t'

namespace Sustains

variable {exec : (o : Op) → σ → Option (Ret o × σ)} {R G : σ → σ → Prop} {Q : α → σ → Prop}

/-- **Stability.** The environment cannot invalidate what is left to do. -/
theorem stable (htrans : ∀ a b c, R a b → R b c → R a c) {p : Prog Ret α} {s t : σ}
    (h : Sustains exec R G Q p s) (hst : R s t) : Sustains exec R G Q p t := by
  cases p with
  | ret a => exact fun u hu => h u (htrans _ _ _ hst hu)
  | step o k => exact fun u hu => h u (htrans _ _ _ hst hu)

/-- The program's own next step, taken in the current state. -/
theorem next (hrefl : ∀ a, R a a) {o : Op} {k : Ret o → Prog Ret α} {s s' : σ} {r : Ret o}
    (h : Sustains exec R G Q (.step o k) s) (he : exec o s = some (r, s')) :
    G s s' ∧ Sustains exec R G Q (k r) s' := by
  obtain ⟨r', t', he', hG, hk⟩ := h s (hrefl s)
  rw [he] at he'
  obtain ⟨rfl, rfl⟩ := Prod.mk.inj (Option.some.inj he')
  exact ⟨hG, hk⟩

/-- A sustained program is never stuck. -/
theorem progress (hrefl : ∀ a, R a a) {o : Op} {k : Ret o → Prog Ret α} {s : σ}
    (h : Sustains exec R G Q (.step o k) s) : (exec o s).isSome := by
  obtain ⟨r, t', he, -⟩ := h s (hrefl s)
  rw [he]; rfl

/-- A sustained program that has returned satisfies its postcondition. -/
theorem done (hrefl : ∀ a, R a a) {a : α} {s : σ}
    (h : Sustains exec R G Q (.ret a) s) : Q a s :=
  h s (hrefl s)

/-- The rule for one step: an assertion `A` that holds now and survives the environment, and
under which the step does what it should. -/
theorem of_step {A : σ → Prop} (hA : ∀ s t, A s → R s t → A t) {o : Op}
    {k : Ret o → Prog Ret α} {s : σ} (hs : A s)
    (h : ∀ t, A t → ∃ r t', exec o t = some (r, t') ∧ G t t' ∧ Sustains exec R G Q (k r) t') :
    Sustains exec R G Q (.step o k) s :=
  fun t ht => h t (hA s t hs ht)

theorem of_ret {A : σ → Prop} (hA : ∀ s t, A s → R s t → A t) {a : α} {s : σ} (hs : A s)
    (h : ∀ t, A t → Q a t) : Sustains exec R G Q (.ret a : Prog Ret α) s :=
  fun t ht => h t (hA s t hs ht)

/-- A program whose result is passed on in another form. -/
theorem map {β : Type} {f : α → β} {Q : β → σ → Prop} {p : Prog Ret α} {s : σ}
    (h : Sustains exec R G (fun a => Q (f a)) p s) :
    Sustains exec R G Q (p >>= fun a => .ret (f a)) s := by
  induction p generalizing s with
  | ret a => exact h
  | step o k ih =>
    intro t ht
    obtain ⟨r, t', he, hG, hk⟩ := h t ht
    exact ⟨r, t', he, hG, ih r hk⟩

end Sustains

end Sustains

/-! ### Interference without progress -/

section Abides

variable {Op : Type} {Ret : Op → Type} {α β σ : Type}

/-- As `Sustains`, except that a step may fault. -/
def Abides (exec : (o : Op) → σ → Option (Ret o × σ)) (R G : σ → σ → Prop)
    (Q : α → σ → Prop) : Prog Ret α → σ → Prop
  | .ret a, s => ∀ t, R s t → Q a t
  | .step o k, s => ∀ t, R s t → ∀ r t', exec o t = some (r, t') → G t t' ∧
      Abides exec R G Q (k r) t'

/-- Whatever the steps answer, every step the program comes to satisfies `P`, and what it returns
satisfies `Q`. -/
def Prog.All (P : Op → Prop) (Q : α → Prop) : Prog Ret α → Prop
  | .ret a => Q a
  | .step o k => P o ∧ ∀ r, All P Q (k r)

namespace Prog.All

variable {P : Op → Prop} {Q : α → Prop}

/-- A property of the steps, through a composition. -/
theorem bind {p : Prog Ret α} {f : α → Prog Ret β} {Q : β → Prop}
    (h : p.All P fun a => (f a).All P Q) : (p >>= f).All P Q := by
  induction p with
  | ret a => exact h
  | step o k ih => exact ⟨h.1, fun r => ih r (h.2 r)⟩

theorem of_forall (p : Prog Ret α) (hP : ∀ o, P o) (hQ : ∀ a, Q a) : p.All P Q := by
  induction p with
  | ret a => exact hQ a
  | step o k ih => exact ⟨hP o, ih⟩

theorem mono {p : Prog Ret α} {Q' : α → Prop} (h : p.All P Q) (hQ : ∀ a, Q a → Q' a) :
    p.All P Q' := by
  induction p with
  | ret a => exact hQ a h
  | step o k ih => exact ⟨h.1, fun r => ih r (h.2 r)⟩

theorem imp {P' : Op → Prop} {p : Prog Ret α} (h : p.All P Q) (hP : ∀ o, P o → P' o) :
    p.All P' Q := by
  induction p with
  | ret a => exact h
  | step o k ih => exact ⟨hP o h.1, fun r => ih r (h.2 r)⟩

/-- What every step preserves, a completed run preserves. -/
theorem of_run {exec : (o : Op) → σ → Option (Ret o × σ)} {I : σ → Prop}
    (hI : ∀ o, P o → ∀ s r s', exec o s = some (r, s') → I s → I s') {p : Prog Ret α}
    (h : p.All P Q) {s s' : σ} {a : α} (hr : p.run exec s = some (a, s')) (hs : I s) :
    Q a ∧ I s' := by
  induction p generalizing s with
  | ret b =>
    obtain ⟨rfl, rfl⟩ := Prod.mk.inj (Option.some.inj hr)
    exact ⟨h, hs⟩
  | step o k ih =>
    obtain ⟨y, he, hk⟩ := Prog.of_run_step hr
    exact ih y.1 (h.2 y.1) hk (hI o h.1 s y.1 y.2 he hs)

end Prog.All

namespace Abides

variable {exec : (o : Op) → σ → Option (Ret o × σ)} {R G : σ → σ → Prop} {Q : α → σ → Prop}

/-- **Stability**, as for `Sustains`. -/
theorem stable (htrans : ∀ a b c, R a b → R b c → R a c) {p : Prog Ret α} {s t : σ}
    (h : Abides exec R G Q p s) (hst : R s t) : Abides exec R G Q p t := by
  cases p with
  | ret a => exact fun u hu => h u (htrans _ _ _ hst hu)
  | step o k => exact fun u hu => h u (htrans _ _ _ hst hu)

theorem next (hrefl : ∀ a, R a a) {o : Op} {k : Ret o → Prog Ret α} {s s' : σ} {r : Ret o}
    (h : Abides exec R G Q (.step o k) s) (he : exec o s = some (r, s')) :
    G s s' ∧ Abides exec R G Q (k r) s' :=
  h s (hrefl s) r s' he

theorem done (hrefl : ∀ a, R a a) {a : α} {s : σ} (h : Abides exec R G Q (.ret a) s) : Q a s :=
  h s (hrefl s)

/-- The rule for one step, which is asked for nothing where it faults. -/
theorem of_step {A : σ → Prop} (hA : ∀ s t, A s → R s t → A t) {o : Op}
    {k : Ret o → Prog Ret α} {s : σ} (hs : A s)
    (h : ∀ t, A t → ∀ r t', exec o t = some (r, t') → G t t' ∧ Abides exec R G Q (k r) t') :
    Abides exec R G Q (.step o k) s :=
  fun t ht => h t (hA s t hs ht)

theorem of_ret {A : σ → Prop} (hA : ∀ s t, A s → R s t → A t) {a : α} {s : σ} (hs : A s)
    (h : ∀ t, A t → Q a t) : Abides exec R G Q (.ret a : Prog Ret α) s :=
  fun t ht => h t (hA s t hs ht)

/-- **Composition.** -/
theorem bind (hrefl : ∀ a, R a a) {p : Prog Ret α} {f : α → Prog Ret β} {Q : β → σ → Prop} {s : σ}
    (h : Abides exec R G (fun a t => Abides exec R G Q (f a) t) p s) :
    Abides exec R G Q (p >>= f) s := by
  induction p generalizing s with
  | ret a => exact h s (hrefl s)
  | step o k ih =>
    intro t ht r t' he
    obtain ⟨hG, hk⟩ := h t ht r t' he
    exact ⟨hG, ih r hk⟩

/-- A program whose steps all preserve an assertion that survives the environment. -/
theorem of_invariant {A : σ → Prop} (hA : ∀ s t, A s → R s t → A t) {P : Op → Prop}
    (hP : ∀ o, P o → ∀ s r s', A s → exec o s = some (r, s') → G s s' ∧ A s')
    {p : Prog Ret α} {V : α → Prop} (h : p.All P V) {s : σ} (hs : A s) :
    Abides exec R G (fun a t => V a ∧ A t) p s := by
  -- by induction on the program; the environment moves before each of its steps
  induction p generalizing s with
  | ret a => exact fun t ht => ⟨h, hA s t hs ht⟩
  | step o k ih =>
    intro t ht r t' he
    obtain ⟨hG, hA'⟩ := hP o h.1 t r t' (hA s t hs ht) he
    exact ⟨hG, ih r (h.2 r) hA'⟩

theorem mono {p : Prog Ret α} {Q' : α → σ → Prop} {s : σ} (h : Abides exec R G Q p s)
    (hQ : ∀ a t, Q a t → Q' a t) : Abides exec R G Q' p s := by
  induction p generalizing s with
  | ret a => exact fun t ht => hQ a t (h t ht)
  | step o k ih =>
    intro t ht r t' he
    obtain ⟨hG, hk⟩ := h t ht r t' he
    exact ⟨hG, ih r hk⟩

end Abides

end Abides

end Framework
