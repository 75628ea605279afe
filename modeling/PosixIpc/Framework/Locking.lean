import Mathlib.Logic.Function.Basic
import PosixIpc.Framework.Triple
import PosixIpc.Framework.Run

/-!
# Calls under one lock

Any number of threads call the functions of one object. A call takes the lock, does its steps and
gives the lock back; before it has the lock it tries again and again. The steps of the threads are
taken in any order, one step of one thread at a time.

`TryLock` is what is asked of the lock. `Team` is the state of all threads; its `log` has the calls
that have given the lock back, in that order, with their answers. The invariant `Team.Inv` says that

* at most one thread is between taking the lock and giving it back, and the lock shows whether there
  is one (`alone`, `held`);
* performing the calls of the log one after the other, each of them without interruption, gives the
  answers of the log and leads to the state the thread that has the lock has started from (`serial`).

So whatever the order of the steps, it comes to an order of whole calls (`Team.serializable`). A
thread that has the lock gives it back by steps of its own, if its call can be completed at all
(`Team.exists_release`). Where all calls can be completed (`Team.Completes`), no thread is ever
stuck, and what whole calls preserve holds of the calls that are over (`Team.Inv.justified`).
-/

namespace Framework

/-- A lock that is taken by trying. An attempt succeeds if and only if the lock is not held, and the
lock is held after it in any case. -/
structure TryLock (L : Type) where
  attempt : L → Bool × L
  release : L → L
  held : L → Bool
  attempt_fst : ∀ l, (attempt l).1 = !held l
  held_attempt : ∀ l, held (attempt l).2 = true
  held_release : ∀ l, held (release l) = false

/-- Where a thread stands. -/
inductive Phase {Op : Type} (Ret : Op → Type) (C A X : Type) where
  | idle
  /-- Before it has the lock. -/
  | waiting (call : C)
  | inside (call : C) (rest : Prog Ret (A × X))
  /-- The object is stored, the lock not given back yet. -/
  | leaving (call : C) (answer : A)

/-- The threads, the object, the rest of the world, and the calls that are over. -/
structure Team {Op : Type} (Ret : Op → Type) (I L C A X σ : Type) where
  lock : L
  object : X
  world : σ
  phase : I → Phase Ret C A X
  log : List (I × C × A)

inductive TeamAction (I C : Type) where
  | call (i : I) (c : C)
  | step (i : I)

variable {Op : Type} {Ret : Op → Type} {I L C A X σ : Type}

namespace Phase

/-- The thread has the lock. -/
def Holds : Phase Ret C A X → Prop
  | .idle => False
  | .waiting _ => False
  | .inside _ _ => True
  | .leaving _ _ => True

instance : (p : Phase Ret C A X) → Decidable p.Holds
  | .idle => isFalse id
  | .waiting _ => isFalse id
  | .inside _ _ => isTrue trivial
  | .leaving _ _ => isTrue trivial

end Phase

namespace Team

variable (lock : TryLock L) (exec : (o : Op) → σ → Option (Ret o × σ))
  (body : C → X → Prog Ret (A × X))

/-- The next step of thread `i`. -/
def advance [DecidableEq I] (i : I) (y : Team Ret I L C A X σ) :
    Option (Team Ret I L C A X σ) :=
  match y.phase i with
  | .idle => none
  | .waiting call =>
    match lock.attempt y.lock with
    | (true, l) =>
      some { y with lock := l,
                    phase := Function.update y.phase i (.inside call (body call y.object)) }
    | (false, l) => some { y with lock := l }
  | .inside call (.step o k) =>
    (exec o y.world).map fun z =>
      { y with world := z.2, phase := Function.update y.phase i (.inside call (k z.1)) }
  | .inside call (.ret (answer, x)) =>
    some { y with object := x, phase := Function.update y.phase i (.leaving call answer) }
  | .leaving call answer =>
    some { y with lock := lock.release y.lock, phase := Function.update y.phase i .idle,
                  log := y.log ++ [(i, call, answer)] }

/-- The threads as a machine without replies. -/
def step [DecidableEq I] (y : Team Ret I L C A X σ) :
    TeamAction I C → Option (Unit × Team Ret I L C A X σ)
  | .call i call =>
    match y.phase i with
    | .idle => some ((), { y with phase := Function.update y.phase i (.waiting call) })
    | _ => none
  | .step i => (y.advance lock exec body i).map fun z => ((), z)

/-- No thread is in a call. -/
def start (l : L) (x : X) (w : σ) : Team Ret I L C A X σ where
  lock := l
  object := x
  world := w
  phase := fun _ => .idle
  log := []

/-- The object as a machine of whole calls. -/
def whole (z : X × σ) (call : C) : Option (A × (X × σ)) :=
  ((body call z.1).run exec z.2).map fun y => (y.1.1, (y.1.2, y.2))

/-- The calls that are over. -/
def calls (y : Team Ret I L C A X σ) : List C := y.log.map fun e => e.2.1

/-- Their answers. -/
def answers (y : Team Ret I L C A X σ) : List A := y.log.map fun e => e.2.2

/-- Nobody has the lock. -/
def Free (y : Team Ret I L C A X σ) : Prop := ∀ i, ¬ (y.phase i).Holds

/-- What a thread has done since it took the lock is what its call does without interruption from
the object `x` and the world `w`. -/
def Agrees (x : X) (w : σ) (y : Team Ret I L C A X σ) : Phase Ret C A X → Prop
  | .idle => True
  | .waiting _ => True
  | .inside call rest => y.object = x ∧ (body call x).run exec w = rest.run exec y.world
  | .leaving call answer => (body call x).run exec w = some ((answer, y.object), y.world)

/-- The invariant. -/
structure Inv (x₀ : X) (w₀ : σ) (y : Team Ret I L C A X σ) : Prop where
  alone : ∀ i j, (y.phase i).Holds → (y.phase j).Holds → i = j
  held : lock.held y.lock = true ↔ ∃ i, (y.phase i).Holds
  serial : ∃ x w, replies (whole exec body) (x₀, w₀) y.calls = some (y.answers, (x, w)) ∧
    (∀ i, y.Agrees exec body x w (y.phase i)) ∧ (y.Free → y.object = x ∧ y.world = w)

variable {lock exec body} {x₀ : X} {w₀ : σ} {y z : Team Ret I L C A X σ} {i : I}

/-- A thread without the lock has no part of the object. -/
theorem agrees_of_not_holds {p : Phase Ret C A X} (h : ¬ p.Holds) (x : X) (w : σ)
    (y : Team Ret I L C A X σ) : y.Agrees exec body x w p := by
  cases p with
  | idle => exact trivial
  | waiting call => exact trivial
  | inside call rest => exact absurd trivial h
  | leaving call answer => exact absurd trivial h

/-- The invariant holds where nobody has the lock. -/
theorem inv_start {l : L} (hl : lock.held l = false) (x : X) (w : σ) :
    (start l x w : Team Ret I L C A X σ).Inv lock exec body x w := by
  refine ⟨fun i j hi => hi.elim, ?_, x, w, rfl, fun _ => trivial, fun _ => ⟨rfl, rfl⟩⟩
  -- the lock is free, and nobody has it
  constructor
  · intro h
    exact absurd (h.symm.trans hl) (by simp)
  · rintro ⟨i, hi⟩
    exact hi.elim

/-- In a state where `i` has the lock, the others have not. -/
theorem Inv.not_holds (h : y.Inv lock exec body x₀ w₀) (hi : (y.phase i).Holds) {j : I}
    (hj : j ≠ i) : ¬ (y.phase j).Holds :=
  fun hj' => hj (h.alone j i hj' hi)

/-- Nobody has the lock if an attempt succeeds. -/
theorem Inv.free (h : y.Inv lock exec body x₀ w₀) (hl : lock.held y.lock = false) : y.Free := by
  intro i hi
  have hheld := h.held.mpr ⟨i, hi⟩
  rw [hl] at hheld
  exact absurd hheld (by simp)

/-! ### One step -/

variable [DecidableEq I]

/-- A thread that has not got the lock before and after its step changes nothing that matters. -/
theorem Inv.of_outside (h : y.Inv lock exec body x₀ w₀) {p : Phase Ret C A X} {l : L}
    (hi : ¬ (y.phase i).Holds) (hp : ¬ p.Holds) (hl : lock.held l = lock.held y.lock) :
    Inv lock exec body x₀ w₀
      { y with lock := l, phase := Function.update y.phase i p } := by
  -- the thread held nothing before and holds nothing now
  have hiff : ∀ j, (Function.update y.phase i p j).Holds ↔ (y.phase j).Holds := by
    intro j
    by_cases hj : j = i
    · subst hj
      rw [Function.update_self]
      exact ⟨fun h' => absurd h' hp, fun h' => absurd h' hi⟩
    · rw [Function.update_of_ne hj]
  obtain ⟨x, w, hrun, hagree, hfree⟩ := h.serial
  refine ⟨fun j k hj hk => h.alone j k ((hiff j).mp hj) ((hiff k).mp hk), ?_, x, w, hrun,
    fun j => ?_, fun hall => hfree fun j hj => hall j ((hiff j).mpr hj)⟩
  · rw [show lock.held ({ y with lock := l, phase := Function.update y.phase i p } :
      Team Ret I L C A X σ).lock = lock.held y.lock from hl, h.held]
    exact exists_congr fun j => (hiff j).symm
  · -- what the others have got of the object they still have
    change Agrees exec body x w _ (Function.update y.phase i p j)
    by_cases hj : j = i
    · subst hj
      rw [Function.update_self]
      exact agrees_of_not_holds hp x w _
    · rw [Function.update_of_ne hj]
      have hj' := hagree j
      generalize y.phase j = ph at hj' ⊢
      cases ph <;> exact hj'

/-- The step of a thread that has the lock, before or after it. -/
theorem Inv.of_holder (h : y.Inv lock exec body x₀ w₀) {p : Phase Ret C A X}
    (hothers : ∀ j, j ≠ i → ¬ (y.phase j).Holds) (hp : p.Holds)
    (hz : z.phase = Function.update y.phase i p) (hl : lock.held z.lock = true)
    (hlog : z.log = y.log)
    (hagree : ∀ x w, y.Agrees exec body x w (y.phase i) →
      (y.Free → y.object = x ∧ y.world = w) → z.Agrees exec body x w p) :
    z.Inv lock exec body x₀ w₀ := by
  -- the holder is the only one, before and after
  have hself : (z.phase i).Holds := by
    rw [hz, Function.update_self]
    exact hp
  have hne : ∀ j, j ≠ i → ¬ (z.phase j).Holds := by
    intro j hj
    rw [hz, Function.update_of_ne hj]
    exact hothers j hj
  have honly : ∀ j, (z.phase j).Holds → j = i := fun j hj => by_contra fun hji => hne j hji hj
  obtain ⟨x, w, hrun, hall, hfree⟩ := h.serial
  refine ⟨fun j k hj hk => (honly j hj).trans (honly k hk).symm, ⟨fun _ => ⟨i, hself⟩, fun _ => hl⟩,
    x, w, ?_, fun j => ?_, fun hz' => absurd hself (hz' i)⟩
  · unfold calls answers at hrun ⊢
    rw [hlog]
    exact hrun
  · -- the holder's phase has to agree with the state its call began in
    by_cases hj : j = i
    · subst hj
      rw [hz, Function.update_self]
      exact hagree x w (hall j) hfree
    · exact agrees_of_not_holds (hne j hj) x w z

/-- Giving the lock back. -/
theorem Inv.of_leaving (h : y.Inv lock exec body x₀ w₀) {call : C} {answer : A}
    (hi : y.phase i = .leaving call answer) :
    Inv lock exec body x₀ w₀
      { y with lock := lock.release y.lock, phase := Function.update y.phase i .idle,
               log := y.log ++ [(i, call, answer)] } := by
  have hholds : (y.phase i).Holds := by
    rw [hi]
    exact trivial
  have hnone : ∀ j, ¬ (Function.update y.phase i .idle j).Holds := by
    intro j
    by_cases hj : j = i
    · subst hj
      rw [Function.update_self]
      exact id
    · rw [Function.update_of_ne hj]
      exact h.not_holds hholds hj
  obtain ⟨x, w, hrun, hall, -⟩ := h.serial
  have hagree := hall i
  rw [hi] at hagree
  refine ⟨fun j k hj => absurd hj (hnone j), ⟨fun hheld => ?_, fun ⟨j, hj⟩ => absurd hj (hnone j)⟩,
    y.object, y.world, ?_, fun j => agrees_of_not_holds (hnone j) _ _ _, fun _ => ⟨rfl, rfl⟩⟩
  · exact absurd ((lock.held_release y.lock).symm.trans hheld) (by simp)
  · -- the call that is over comes last
    unfold calls answers at hrun ⊢
    rw [List.map_append, List.map_append]
    refine replies_concat hrun ?_
    change (Option.map _ ((body call x).run exec w)) = _
    rw [show (body call x).run exec w = some ((answer, y.object), y.world) from hagree]
    rfl

/-- **Every step keeps the invariant.** -/
theorem Inv.advance (h : y.Inv lock exec body x₀ w₀)
    (hs : y.advance lock exec body i = some z) : z.Inv lock exec body x₀ w₀ := by
  unfold Team.advance at hs
  split at hs
  · exact absurd hs (by simp)
  · next call hi =>
    have hnot : ¬ (y.phase i).Holds := by
      rw [hi]
      exact id
    split at hs
    · next l hl =>
      -- the lock was free, so the call starts from where the last one has ended
      have hfst : (lock.attempt y.lock).1 = true := by rw [hl]
      rw [lock.attempt_fst, Bool.not_eq_true'] at hfst
      have hfree := h.free hfst
      have hheld := lock.held_attempt y.lock
      rw [hl] at hheld
      obtain rfl := Option.some.inj hs
      refine h.of_holder (i := i) (fun j _ => hfree j) (p := .inside call (body call y.object))
        trivial rfl hheld rfl fun x w _ hstart => ?_
      obtain ⟨hx, hw⟩ := hstart hfree
      exact ⟨hx, by rw [← hx, ← hw]⟩
    · next l hl =>
      -- somebody has the lock: nothing changes
      have hfst : (lock.attempt y.lock).1 = false := by rw [hl]
      rw [lock.attempt_fst, Bool.not_eq_false'] at hfst
      have hheld := lock.held_attempt y.lock
      rw [hl] at hheld
      obtain rfl := Option.some.inj hs
      have hsame := h.of_outside (i := i) (p := y.phase i) (l := l) hnot hnot (hheld.trans hfst.symm)
      rw [Function.update_eq_self] at hsame
      exact hsame
  · next call o k hi =>
    obtain ⟨⟨r, w'⟩, he, rfl⟩ := Option.map_eq_some_iff.mp hs
    have hholds : (y.phase i).Holds := by
      rw [hi]
      exact trivial
    refine h.of_holder (i := i) (fun j hj => h.not_holds hholds hj) (p := .inside call (k r))
      trivial rfl (h.held.mpr ⟨i, hholds⟩) rfl fun x w hagree _ => ?_
    rw [hi] at hagree
    exact ⟨hagree.1, hagree.2.trans (Prog.run_step he)⟩
  · next call answer x' hi =>
    obtain rfl := Option.some.inj hs
    have hholds : (y.phase i).Holds := by
      rw [hi]
      exact trivial
    refine h.of_holder (i := i) (fun j hj => h.not_holds hholds hj) (p := .leaving call answer)
      trivial rfl (h.held.mpr ⟨i, hholds⟩) rfl fun x w hagree _ => ?_
    rw [hi] at hagree
    exact hagree.2
  · next call answer hi =>
    obtain rfl := Option.some.inj hs
    exact h.of_leaving hi

/-- **One action** keeps the invariant. -/
theorem Inv.step {a : TeamAction I C} {u : Unit} (h : y.Inv lock exec body x₀ w₀)
    (hs : y.step lock exec body a = some (u, z)) : z.Inv lock exec body x₀ w₀ := by
  cases a with
  | call i call =>
    simp only [Team.step] at hs
    split at hs
    · next hi =>
      obtain ⟨-, rfl⟩ := Prod.mk.inj (Option.some.inj hs)
      exact h.of_outside (l := y.lock) (by rw [hi]; exact id) (p := .waiting call) id rfl
    · exact absurd hs (by simp)
  | step i =>
    obtain ⟨z', hadv, hz⟩ := Option.map_eq_some_iff.mp hs
    obtain ⟨-, rfl⟩ := Prod.mk.inj hz
    exact h.advance hadv

/-! ### All runs -/

/-- **The invariant holds in every state reached.** -/
theorem inv_of_reaches {l : L} (hl : lock.held l = false) {acts : List (TeamAction I C)}
    (hr : Reaches (step lock exec body) (fun _ _ => True) (start l x₀ w₀) acts y) :
    y.Inv lock exec body x₀ w₀ :=
  hr.invariant (fun _ _ _ _ h _ hs => h.step hs) (inv_start hl x₀ w₀)

/-- The log only grows. -/
theorem log_of_step {a : TeamAction I C} {u : Unit}
    (hs : y.step lock exec body a = some (u, z)) : ∃ new, z.log = y.log ++ new := by
  cases a with
  -- a call that begins is not logged yet
  | call i call =>
    simp only [Team.step] at hs
    split at hs
    · obtain ⟨-, rfl⟩ := Prod.mk.inj (Option.some.inj hs)
      exact ⟨[], (List.append_nil _).symm⟩
    · exact absurd hs (by simp)
  | step i =>
    obtain ⟨z', hadv, hz⟩ := Option.map_eq_some_iff.mp hs
    obtain ⟨-, rfl⟩ := Prod.mk.inj hz
    -- by the phase of the thread: only giving the lock back enters the call in the log
    unfold Team.advance at hadv
    split at hadv
    · exact absurd hadv (by simp)
    · split at hadv
      · obtain rfl := Option.some.inj hadv
        exact ⟨[], (List.append_nil _).symm⟩
      · obtain rfl := Option.some.inj hadv
        exact ⟨[], (List.append_nil _).symm⟩
    · obtain ⟨r, -, rfl⟩ := Option.map_eq_some_iff.mp hadv
      exact ⟨[], (List.append_nil _).symm⟩
    · obtain rfl := Option.some.inj hadv
      exact ⟨[], (List.append_nil _).symm⟩
    · obtain rfl := Option.some.inj hadv
      exact ⟨[_], rfl⟩

/-- The log only grows. -/
theorem log_of_reaches {acts : List (TeamAction I C)}
    {P : Team Ret I L C A X σ → TeamAction I C → Prop}
    (hr : Reaches (step lock exec body) P y acts z) : ∃ new, z.log = y.log ++ new := by
  refine hr.invariant (I := fun t => ∃ new, t.log = y.log ++ new) ?_ ⟨[], (List.append_nil _).symm⟩
  rintro x a u t ⟨new, hnew⟩ - hs
  obtain ⟨new', hnew'⟩ := log_of_step hs
  exact ⟨new ++ new', by rw [hnew', hnew, List.append_assoc]⟩

/-- **Serializability.** Whenever nobody has the lock, the object and the world are those that the
calls of the log, one after the other, lead to, and these calls have the answers of the log. -/
theorem serializable {l : L} (hl : lock.held l = false) {acts : List (TeamAction I C)}
    (hr : Reaches (step lock exec body) (fun _ _ => True) (start l x₀ w₀) acts y)
    (hfree : y.Free) :
    replies (whole exec body) (x₀, w₀) y.calls = some (y.answers, (y.object, y.world)) := by
  obtain ⟨x, w, hrun, -, hend⟩ := (inv_of_reaches hl hr).serial
  obtain ⟨hx, hw⟩ := hend hfree
  rw [hx, hw]
  exact hrun

variable (lock body) in
/-- **The lock is given back.** A thread that has the lock and whose call can be completed completes
it by its own steps. -/
theorem exists_release {call : C} {rest : Prog Ret (A × X)} (hi : y.phase i = .inside call rest)
    {answer : A} {x : X} {w : σ} (hrun : rest.run exec y.world = some ((answer, x), w)) :
    ∃ n, follow (step lock exec body) y (List.replicate n (.step i)) =
      some { y with lock := lock.release y.lock, object := x, world := w,
                    phase := Function.update y.phase i .idle,
                    log := y.log ++ [(i, call, answer)] } := by
  -- by induction on what is left of the call
  induction rest generalizing y with
  | ret b =>
    obtain ⟨rfl, rfl⟩ := Prod.mk.inj (Option.some.inj hrun)
    refine ⟨2, ?_⟩
    simp only [List.replicate, follow, Team.step, Team.advance, hi, Option.map_some,
      Option.bind_some, Function.update_self, Function.update_idem]
  | step o k ih =>
    obtain ⟨⟨r, w'⟩, he, hk⟩ := Prog.of_run_step hrun
    obtain ⟨n, hn⟩ := ih r
      (y := { y with world := w', phase := Function.update y.phase i (.inside call (k r)) })
      (Function.update_self i _ y.phase) hk
    refine ⟨n + 1, ?_⟩
    rw [List.replicate_succ, follow]
    simp only [Team.step, Team.advance, hi, he, Option.map_some, Option.bind_some]
    simpa only [Function.update_idem] using hn

/-! ### Calls that complete -/

variable (exec body) in
/-- Every call completes where `J` holds of the calls so far and the state, and `J` goes on to hold.
-/
def Completes (J : List (C × A) → X → σ → Prop) : Prop :=
  ∀ log x w call, J log x w → ∃ answer x' w',
    (body call x).run exec w = some ((answer, x'), w') ∧ J (log ++ [(call, answer)]) x' w'

variable {J : List (C × A) → X → σ → Prop}

omit [DecidableEq I] in
/-- Whole calls, one after the other. -/
theorem Completes.replies (hJ : Completes exec body J) {log : List (C × A)} {x x' : X} {w w' : σ}
    {calls : List C} {answers : List A} (hlog : J log x w)
    (h : Framework.replies (whole exec body) (x, w) calls = some (answers, (x', w'))) :
    J (log ++ calls.zip answers) x' w' := by
  -- by induction on the calls, in the order in which they were made
  induction calls generalizing log x w answers with
  | nil =>
    obtain ⟨rfl, hw⟩ := Prod.mk.inj (Option.some.inj h)
    obtain ⟨rfl, rfl⟩ := Prod.mk.inj hw
    rw [List.zip_nil_left, List.append_nil]
    exact hlog
  | cons call calls ih =>
    obtain ⟨answer, x₁, w₁, hrun, hnext⟩ := hJ log x w call hlog
    have hwhole : whole exec body (x, w) call = some (answer, (x₁, w₁)) := by
      rw [whole, hrun]
      rfl
    simp only [Framework.replies, hwhole] at h
    split at h
    · exact absurd h (by simp)
    · next rs y hrest =>
      obtain ⟨rfl, rfl⟩ := Prod.mk.inj (Option.some.inj h)
      rw [List.zip_cons_cons, List.append_cons]
      exact ih hnext hrest

omit [DecidableEq I] in
/-- `J` holds of the calls that are over and the state that the thread inside has started from. -/
theorem Inv.justified (h : y.Inv lock exec body x₀ w₀) (hJ : Completes exec body J)
    (h₀ : J [] x₀ w₀) : ∃ x w, J (y.log.map Prod.snd) x w ∧
      (∀ i, y.Agrees exec body x w (y.phase i)) ∧ (y.Free → y.object = x ∧ y.world = w) := by
  obtain ⟨x, w, hrun, hagree, hfree⟩ := h.serial
  have hx := hJ.replies h₀ hrun
  rw [calls, answers, List.zip_map', List.nil_append] at hx
  exact ⟨x, w, hx, hagree, hfree⟩

/-- **The thread inside** leaves by steps of its own, and then the lock is free. -/
theorem Inv.exists_free (h : y.Inv lock exec body x₀ w₀) (hJ : Completes exec body J)
    (h₀ : J [] x₀ w₀) (hi : (y.phase i).Holds) :
    ∃ n z, follow (Team.step lock exec body) y (List.replicate n (.step i)) = some z ∧ z.Free := by
  obtain ⟨x, w, hx, hall, -⟩ := h.justified hJ h₀
  have hothers : ∀ j, ¬ (Function.update y.phase i .idle j).Holds := by
    intro j
    by_cases hj : j = i
    · subst hj
      rw [Function.update_self]
      exact id
    · rw [Function.update_of_ne hj]
      exact h.not_holds hi hj
  have hagree := hall i
  cases hphase : y.phase i with
  | idle =>
    rw [hphase] at hi
    exact hi.elim
  | waiting call =>
    rw [hphase] at hi
    exact hi.elim
  | inside call rest =>
    -- what is left of the call completes as the whole call does
    rw [hphase] at hagree
    obtain ⟨answer, x', w', hrun, -⟩ := hJ _ x w call hx
    obtain ⟨n, hn⟩ := exists_release lock body hphase (hagree.2.symm.trans hrun)
    exact ⟨n, _, hn, hothers⟩
  | leaving call answer =>
    refine ⟨1, { y with lock := lock.release y.lock, phase := Function.update y.phase i .idle,
                        log := y.log ++ [(i, call, answer)] }, ?_, hothers⟩
    simp only [List.replicate, follow, Team.step, Team.advance, hphase, Option.map_some,
      Option.bind_some]

/-- **No thread is stuck** in a call. -/
theorem Inv.step_isSome (h : y.Inv lock exec body x₀ w₀) (hJ : Completes exec body J)
    (h₀ : J [] x₀ w₀) (hi : y.phase i ≠ .idle) : (y.step lock exec body (.step i)).isSome := by
  obtain ⟨x, w, hx, hall, -⟩ := h.justified hJ h₀
  have hagree := hall i
  rw [Team.step, Option.isSome_map, Team.advance]
  cases hphase : y.phase i with
  | idle => exact absurd hphase hi
  | waiting call =>
    -- an attempt is always answered
    dsimp only
    split
    · rfl
    · rfl
  | inside call rest =>
    rw [hphase] at hagree
    obtain ⟨answer, x', w', hrun, -⟩ := hJ _ x w call hx
    cases rest with
    | ret b => rfl
    | step o k =>
      obtain ⟨z, he, -⟩ := Prog.of_run_step (hagree.2.symm.trans hrun)
      simp only [he, Option.map_some, Option.isSome_some]
  | leaving call answer => rfl

end Team

end Framework
