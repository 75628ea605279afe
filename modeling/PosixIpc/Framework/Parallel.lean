import PosixIpc.Framework.Locking

/-!
# Calls without a lock

Threads perform calls on a shared state, each call a program whose steps are taken one at a time, in
any order with those of the others. Nothing keeps a thread from being in the middle of its call
while another one begins, goes on or returns.

The rule for such systems is `Linearizes`. It asks of each thread a guarantee `G`, which is what its
steps may do to the state, and a rely `R`, which is what it has to bear with; what the others
guarantee it has to bear. Every call has to get through by itself under its rely, from any state of
the invariant. The state has a list of the events of each thread, `own`: a call has to leave one
event more there than it has found, the event of its answer.

From this follows for all runs (`Gang.sound_of_reaches`) that no thread is ever stuck, that the
invariant holds, and that the events of a thread are those of the calls it has returned from. If the
invariant says that all events together are a history of a sequential object, this is
linearizability.

The calls may be held to more than the state asks for: `careful` is an execution that has no answer
where `exec` has one, and the calls have to get through with it. So whatever `careful` refuses is
never about to be done.
-/

namespace Framework

variable {Op : Type} {Ret : Op → Type} {I C A E σ : Type}

/-- The threads, what they have left to do, and the calls that have returned. -/
structure Gang (Ret : Op → Type) (I C A σ : Type) where
  shared : σ
  current : I → Option (C × Prog Ret A)
  log : List (I × C × A)

namespace Gang

variable (exec : I → C → (o : Op) → σ → Option (Ret o × σ)) (body : I → C → Prog Ret A)

/-- No thread is in a call. -/
def start (s : σ) : Gang Ret I C A σ := ⟨s, fun _ => none, []⟩

/-- A thread begins a call, takes the next step of it, or returns from it. -/
def step [DecidableEq I] (y : Gang Ret I C A σ) :
    TeamAction I C → Option (Unit × Gang Ret I C A σ)
  | .call i c =>
    match y.current i with
    | none => some ((), { y with current := Function.update y.current i (some (c, body i c)) })
    | some _ => none
  | .step i =>
    match y.current i with
    | none => none
    | some (c, .step o k) =>
      (exec i c o y.shared).map fun z =>
        ((), { y with shared := z.2, current := Function.update y.current i (some (c, k z.1)) })
    | some (c, .ret a) =>
      some ((), { y with current := Function.update y.current i none,
                         log := y.log ++ [(i, c, a)] })

end Gang

section Finished

variable [DecidableEq I]

/-- The events of the calls a thread has returned from. -/
def finished (event : I → C → A → E) (log : List (I × C × A)) (i : I) : List E :=
  (log.filter fun e => e.1 = i).map fun e => event i e.2.1 e.2.2

theorem finished_concat_self (event : I → C → A → E) (log : List (I × C × A)) (i : I) (c : C)
    (a : A) : finished event (log ++ [(i, c, a)]) i = finished event log i ++ [event i c a] := by
  simp [finished]

theorem finished_concat_of_ne (event : I → C → A → E) (log : List (I × C × A)) {i j : I}
    (h : j ≠ i) (c : C) (a : A) : finished event (log ++ [(i, c, a)]) j = finished event log j := by
  simp [finished, Ne.symm h]

end Finished

/-- **The rule.** -/
structure Linearizes (exec careful : I → C → (o : Op) → σ → Option (Ret o × σ))
    (body : I → C → Prog Ret A) (allowed : I → C → Prop) (Inv : σ → Prop)
    (R G : I → σ → σ → Prop) (own : I → σ → List E) (event : I → C → A → E) : Prop where
  careful_exec : ∀ i c o s y, careful i c o s = some y → exec i c o s = some y
  rely_refl : ∀ i s, R i s s
  rely_trans : ∀ i s t u, R i s t → R i t u → R i s u
  rely_of_guarantee : ∀ i j s t, j ≠ i → Inv s → G j s t → R i s t
  rely_own : ∀ i s t, R i s t → own i t = own i s
  guarantee_inv : ∀ i s t, Inv s → G i s t → Inv t
  sustained : ∀ i c s, allowed i c → Inv s →
    Sustains (careful i c) (R i) (G i) (fun a t => own i t = own i s ++ [event i c a]) (body i c) s

namespace Gang

variable {exec careful : I → C → (o : Op) → σ → Option (Ret o × σ)} {body : I → C → Prog Ret A}
  {allowed : I → C → Prop} {Inv : σ → Prop} {R G : I → σ → σ → Prop} {own : I → σ → List E}
  {event : I → C → A → E} {y z : Gang Ret I C A σ} {i : I} {c : C}

/-- A thread may begin a call that is allowed. -/
def Permits (allowed : I → C → Prop) (_ : Gang Ret I C A σ) : TeamAction I C → Prop
  | .call i c => allowed i c
  | .step _ => True

variable [DecidableEq I]

/-- What holds in all states. -/
structure Sound (careful : I → C → (o : Op) → σ → Option (Ret o × σ)) (Inv : σ → Prop)
    (R G : I → σ → σ → Prop) (own : I → σ → List E) (event : I → C → A → E)
    (y : Gang Ret I C A σ) : Prop where
  inv : Inv y.shared
  idle : ∀ i, y.current i = none → own i y.shared = finished event y.log i
  busy : ∀ i c p, y.current i = some (c, p) → Sustains (careful i c) (R i) (G i)
    (fun a t => own i t = finished event y.log i ++ [event i c a]) p y.shared

theorem sound_start {s : σ} (hs : Inv s) (hown : ∀ i, own i s = []) :
    (start s : Gang Ret I C A σ).Sound careful Inv R G own event :=
  ⟨hs, fun i _ => hown i, fun _ _ _ h => absurd h (by simp [start])⟩

/-- A step of thread `i` that the others bear with. -/
theorem Sound.update (hl : Linearizes exec careful body allowed Inv R G own event)
    (h : y.Sound careful Inv R G own event) {s : σ} (hG : G i y.shared s)
    {p : Prog Ret A} (hp : Sustains (careful i c) (R i) (G i)
      (fun a t => own i t = finished event y.log i ++ [event i c a]) p s) :
    Sound careful Inv R G own event
      { y with shared := s, current := Function.update y.current i (some (c, p)) } := by
  have hrely : ∀ j, j ≠ i → R j y.shared s := fun j hj =>
    hl.rely_of_guarantee j i _ _ (Ne.symm hj) h.inv hG
  -- what thread `i` does under its guarantee the others see under their rely
  refine ⟨hl.guarantee_inv i _ _ h.inv hG, fun j hj => ?_, fun j c' p' hj => ?_⟩
  · dsimp only at hj
    by_cases hji : j = i
    · subst hji
      exact absurd hj (by simp)
    · rw [Function.update_of_ne hji] at hj
      exact (hl.rely_own j _ _ (hrely j hji)).trans (h.idle j hj)
  · dsimp only at hj
    by_cases hji : j = i
    · subst hji
      rw [Function.update_self] at hj
      obtain ⟨rfl, rfl⟩ := Prod.mk.inj (Option.some.inj hj)
      exact hp
    · rw [Function.update_of_ne hji] at hj
      exact (h.busy j c' p' hj).stable (hl.rely_trans j) (hrely j hji)

/-- **One step.** -/
theorem Sound.step (hl : Linearizes exec careful body allowed Inv R G own event)
    (h : y.Sound careful Inv R G own event) {a : TeamAction I C} (ha : Permits allowed y a)
    {u : Unit} (hs : y.step exec body a = some (u, z)) :
    z.Sound careful Inv R G own event := by
  cases a with
  | call i c =>
    simp only [Gang.step] at hs
    split at hs
    · next hidle =>
      obtain ⟨-, rfl⟩ := Prod.mk.inj (Option.some.inj hs)
      refine ⟨h.inv, fun j hj => ?_, fun j c' p hj => ?_⟩
      · dsimp only at hj
        by_cases hji : j = i
        · subst hji
          exact absurd hj (by simp)
        · rw [Function.update_of_ne hji] at hj
          exact h.idle j hj
      · dsimp only at hj
        by_cases hji : j = i
        · subst hji
          rw [Function.update_self] at hj
          obtain ⟨rfl, rfl⟩ := Prod.mk.inj (Option.some.inj hj)
          have hsust := hl.sustained j c y.shared ha h.inv
          rw [h.idle j hidle] at hsust
          exact hsust
        · rw [Function.update_of_ne hji] at hj
          exact h.busy j c' p hj
    · exact absurd hs (by simp)
  | step i =>
    simp only [Gang.step] at hs
    split at hs
    · exact absurd hs (by simp)
    · next c o k hcur =>
      -- the careful step is the step
      obtain ⟨⟨r, s⟩, hexec, heq⟩ := Option.map_eq_some_iff.mp hs
      obtain ⟨-, rfl⟩ := Prod.mk.inj heq
      obtain ⟨r', s', hcareful, hG, hk⟩ := h.busy i c _ hcur y.shared (hl.rely_refl i _)
      obtain ⟨rfl, rfl⟩ := Prod.mk.inj
        (Option.some.inj (hexec.symm.trans (hl.careful_exec i c o _ _ hcareful)))
      exact h.update hl hG hk
    · next c a hcur =>
      obtain ⟨-, rfl⟩ := Prod.mk.inj (Option.some.inj hs)
      have hdone := (h.busy i c _ hcur).done (hl.rely_refl i)
      refine ⟨h.inv, fun j hj => ?_, fun j c' p hj => ?_⟩
      · dsimp only at hj ⊢
        by_cases hji : j = i
        · subst hji
          rw [finished_concat_self]
          exact hdone
        · rw [Function.update_of_ne hji] at hj
          rw [finished_concat_of_ne event _ hji]
          exact h.idle j hj
      · dsimp only at hj ⊢
        by_cases hji : j = i
        · subst hji
          exact absurd hj (by simp)
        · rw [Function.update_of_ne hji] at hj
          rw [finished_concat_of_ne event _ hji]
          exact h.busy j c' p hj

/-- **Runs.** -/
theorem sound_of_reaches (hl : Linearizes exec careful body allowed Inv R G own event) {s : σ}
    (hs : Inv s) (hown : ∀ i, own i s = []) {acts : List (TeamAction I C)}
    (hr : Reaches (step exec body) (Permits allowed) (start s) acts y) :
    y.Sound careful Inv R G own event :=
  hr.invariant (fun _ _ _ _ h ha hstep => Sound.step hl h ha hstep) (sound_start hs hown)

/-- What a thread is about to do, it can do carefully. -/
theorem Sound.careful_isSome (hl : Linearizes exec careful body allowed Inv R G own event)
    (h : y.Sound careful Inv R G own event) {o : Op} {k : Ret o → Prog Ret A}
    (hi : y.current i = some (c, .step o k)) : (careful i c o y.shared).isSome :=
  (h.busy i c _ hi).progress (hl.rely_refl i)

/-- **No thread is stuck.** -/
theorem Sound.step_isSome (hl : Linearizes exec careful body allowed Inv R G own event)
    (h : y.Sound careful Inv R G own event) (hi : y.current i ≠ none) :
    (y.step exec body (.step i)).isSome := by
  obtain ⟨⟨c, p⟩, hcur⟩ := Option.ne_none_iff_exists'.mp hi
  cases p with
  | ret a => simp only [Gang.step, hcur, Option.isSome_some]
  | step o k =>
    obtain ⟨z, hz⟩ := Option.isSome_iff_exists.mp (h.careful_isSome hl hcur)
    simp only [Gang.step, hcur, hl.careful_exec i c o _ _ hz, Option.map_some, Option.isSome_some]

/-- **Calls are bounded.** If no call has more than `m` steps then no thread ever has more left. -/
theorem within_of_reaches {m : Nat} (hbody : ∀ i c, (body i c).Within m) {P} {s : σ}
    {acts : List (TeamAction I C)} (hr : Reaches (step exec body) P (start s) acts y) :
    ∀ i c p, y.current i = some (c, p) → p.Within m := by
  refine hr.invariant (I := fun y => ∀ i c p, y.current i = some (c, p) → p.Within m) ?_
    fun i c p h => absurd h (by simp [start])
  intro y a u z hy _ hs
  -- the thread that moves has one step less, or a new call
  have hupdate : ∀ (i : I) (new : Option (C × Prog Ret A)), (∀ c p, new = some (c, p) → p.Within m) →
      ∀ j c p, Function.update y.current i new j = some (c, p) → p.Within m := by
    intro i new hnew j c p hj
    by_cases hji : j = i
    · subst hji
      rw [Function.update_self] at hj
      exact hnew c p hj
    · rw [Function.update_of_ne hji] at hj
      exact hy j c p hj
  cases a with
  | call i c =>
    simp only [Gang.step] at hs
    split at hs
    · obtain ⟨-, rfl⟩ := Prod.mk.inj (Option.some.inj hs)
      refine hupdate i _ fun c' p h => ?_
      obtain ⟨rfl, rfl⟩ := Prod.mk.inj (Option.some.inj h)
      exact hbody i c
    · exact absurd hs (by simp)
  | step i =>
    simp only [Gang.step] at hs
    split at hs
    · exact absurd hs (by simp)
    · next c o k hcur =>
      obtain ⟨⟨r, t⟩, -, heq⟩ := Option.map_eq_some_iff.mp hs
      obtain ⟨-, rfl⟩ := Prod.mk.inj heq
      refine hupdate i _ fun c' p h => ?_
      obtain ⟨-, rfl⟩ := Prod.mk.inj (Option.some.inj h)
      exact ((hy i c _ hcur).next r).mono (Nat.sub_le m 1)
    · obtain ⟨-, rfl⟩ := Prod.mk.inj (Option.some.inj hs)
      exact hupdate i none fun _ _ h => absurd h (by simp)

end Gang

end Framework
