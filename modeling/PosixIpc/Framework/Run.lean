import Mathlib.Data.List.Basic
import Mathlib.Tactic.Common

/-!
# Runs of a deterministic machine

A machine answers an operation in a state with a reply and a next state, or not at all. A run is a
list of operations. `Along step P x os` says that `P` holds of every operation of the run in the
state it is performed in; `Reaches step P x os y` says that the run leads from `x` to `y` and all
its operations satisfy `P`. Safety properties of all runs go through `Reaches.invariant`.
-/

namespace Framework

variable {X O R : Type} {step : X → O → Option (R × X)} {P : X → O → Prop}

/-- Every operation of the run satisfies `P` in the state it is performed in. -/
def Along (step : X → O → Option (R × X)) (P : X → O → Prop) : X → List O → Prop
  | _, [] => True
  | x, o :: os => P x o ∧ ∀ r x', step x o = some (r, x') → Along step P x' os

theorem along_cons_iff {x x' : X} {o : O} {os : List O} {r : R} (h : step x o = some (r, x')) :
    Along step P x (o :: os) ↔ P x o ∧ Along step P x' os := by
  refine and_congr_right fun _ => ⟨fun hall => hall r x' h, fun hx' r' x'' hs => ?_⟩
  obtain ⟨rfl, rfl⟩ := Prod.mk.inj (Option.some.inj (h.symm.trans hs))
  exact hx'

/-- Two conditions that come to the same wherever an invariant holds, and keep it, come to the same
along every run. -/
theorem along_congr {P Q : X → O → Prop} {I : X → Prop} (hPQ : ∀ x o, I x → (P x o ↔ Q x o))
    (hI : ∀ x o r y, I x → P x o → step x o = some (r, y) → I y) {x : X} (hx : I x)
    (os : List O) : Along step P x os ↔ Along step Q x os := by
  induction os generalizing x with
  | nil => exact Iff.rfl
  | cons o os ih =>
    constructor
    · rintro ⟨hP, hrest⟩
      exact ⟨(hPQ x o hx).mp hP, fun r y hs => (ih (hI x o r y hx hP hs)).mp (hrest r y hs)⟩
    · rintro ⟨hQ, hrest⟩
      have hP := (hPQ x o hx).mpr hQ
      exact ⟨hP, fun r y hs => (ih (hI x o r y hx hP hs)).mpr (hrest r y hs)⟩

/-- Two properties that hold along a run hold together. -/
theorem along_and {P Q : X → O → Prop} {x : X} {os : List O} :
    Along step (fun x o => P x o ∧ Q x o) x os ↔ Along step P x os ∧ Along step Q x os := by
  induction os generalizing x with
  | nil => exact ⟨fun _ => ⟨trivial, trivial⟩, fun _ => trivial⟩
  | cons o os ih =>
    constructor
    · rintro ⟨⟨hP, hQ⟩, hrest⟩
      exact ⟨⟨hP, fun r y hs => (ih.mp (hrest r y hs)).1⟩,
        ⟨hQ, fun r y hs => (ih.mp (hrest r y hs)).2⟩⟩
    · rintro ⟨⟨hP, hrest⟩, ⟨hQ, hrest'⟩⟩
      exact ⟨⟨hP, hQ⟩, fun r y hs => ih.mpr ⟨hrest r y hs, hrest' r y hs⟩⟩

/-- Whether `P` holds along a run can be found out by performing the run. -/
instance decidableAlong [∀ x o, Decidable (P x o)] :
    (x : X) → (os : List O) → Decidable (Along step P x os)
  | _, [] => isTrue trivial
  | x, o :: os =>
    match h : step x o with
    | none =>
      decidable_of_iff (P x o)
        ⟨fun hP => ⟨hP, fun r x' hs => absurd (h.symm.trans hs) (by simp)⟩, And.left⟩
    | some (r, x') =>
      have : Decidable (Along step P x' os) := decidableAlong x' os
      decidable_of_iff (P x o ∧ Along step P x' os)
        ⟨fun hP => ⟨hP.1, fun r' x'' hs => by
            obtain ⟨rfl, rfl⟩ := Prod.mk.inj (Option.some.inj (h.symm.trans hs))
            exact hP.2⟩,
          fun hP => ⟨hP.1, hP.2 r x' h⟩⟩

/-- The run `os` leads from one state to the other, through operations that satisfy `P`. -/
inductive Reaches (step : X → O → Option (R × X)) (P : X → O → Prop) : X → List O → X → Prop where
  | refl (x : X) : Reaches step P x [] x
  | cons {x y z : X} {o : O} {os : List O} {r : R} :
      P x o → step x o = some (r, y) → Reaches step P y os z → Reaches step P x (o :: os) z

/-- The state a run ends in, if every operation is answered. -/
def follow (step : X → O → Option (R × X)) : X → List O → Option X
  | x, [] => some x
  | x, o :: os => (step x o).bind fun y => follow step y.2 os

/-- The replies a run gets and the state it ends in, if every operation is answered. -/
def replies (step : X → O → Option (R × X)) : X → List O → Option (List R × X)
  | x, [] => some ([], x)
  | x, o :: os =>
    match step x o with
    | none => none
    | some (r, x') =>
      match replies step x' os with
      | none => none
      | some (rs, y) => some (r :: rs, y)

/-- **Runs that are answered.** If every operation of a run is answered, keeps an invariant and
gets an acceptable reply, so is the whole run. -/
theorem replies_of_invariant {I : X → Prop} {Q : R → Prop} (os : List O)
    (hstep : ∀ o ∈ os, ∀ x, I x → ∃ r y, step x o = some (r, y) ∧ Q r ∧ I y) {x : X} (hx : I x) :
    ∃ rs y, replies step x os = some (rs, y) ∧ (∀ r ∈ rs, Q r) ∧ I y := by
  induction os generalizing x with
  | nil => exact ⟨[], x, rfl, fun r hr => absurd hr List.not_mem_nil, hx⟩
  | cons o os ih =>
    obtain ⟨r, x', hs, hr, hx'⟩ := hstep o List.mem_cons_self x hx
    obtain ⟨rs, y, hrest, hrs, hy⟩ := ih (fun o' ho' => hstep o' (List.mem_cons_of_mem o ho')) hx'
    refine ⟨r :: rs, y, ?_, ?_, hy⟩
    · simp only [replies, hs, hrest]
    · intro r' hr'
      rcases List.mem_cons.mp hr' with rfl | hr'
      · exact hr
      · exact hrs r' hr'

/-- One operation more. -/
theorem replies_concat {x y z : X} {os : List O} {o : O} {rs : List R} {r : R}
    (h : replies step x os = some (rs, y)) (hs : step y o = some (r, z)) :
    replies step x (os ++ [o]) = some (rs ++ [r], z) := by
  -- by induction on the operations before it
  induction os generalizing x rs with
  | nil =>
    obtain ⟨rfl, rfl⟩ := Prod.mk.inj (Option.some.inj h)
    simp only [List.nil_append, replies, hs]
  | cons a os ih =>
    simp only [replies] at h
    split at h
    · exact absurd h (by simp)
    · next r' x' hstep =>
      split at h
      · exact absurd h (by simp)
      · next rs' y' hrest =>
        obtain ⟨rfl, rfl⟩ := Prod.mk.inj (Option.some.inj h)
        have hih := ih hrest
        simp only [List.cons_append, replies, hstep, hih]

/-- Answered runs go over to a machine that simulates the first one with the same replies. -/
theorem replies_of_simulation {X' O' : Type} {step' : X' → O' → Option (R × X')}
    {S : X → X' → Prop} {f : O → O'}
    (hsim : ∀ x x' o r y, S x x' → step x o = some (r, y) →
      ∃ y', step' x' (f o) = some (r, y') ∧ S y y')
    {x y : X} {x' : X'} {os : List O} {rs : List R} (hx : S x x')
    (h : replies step x os = some (rs, y)) :
    ∃ y', replies step' x' (os.map f) = some (rs, y') ∧ S y y' := by
  -- by induction on the operations; the simulation is carried along
  induction os generalizing x x' rs with
  | nil =>
    obtain ⟨rfl, rfl⟩ := Prod.mk.inj (Option.some.inj h)
    exact ⟨x', rfl, hx⟩
  | cons o os ih =>
    simp only [replies] at h
    split at h
    · exact absurd h (by simp)
    · next r x₁ hstep =>
      split at h
      · exact absurd h (by simp)
      · next rs' y₁ hrest =>
        obtain ⟨rfl, rfl⟩ := Prod.mk.inj (Option.some.inj h)
        obtain ⟨x₁', hstep', hx₁⟩ := hsim x x' o r x₁ hx hstep
        obtain ⟨y', hrest', hy⟩ := ih hx₁ hrest
        exact ⟨y', by simp only [List.map_cons, replies, hstep', hrest'], hy⟩

/-- Replies are given in a run that can be followed. -/
theorem follow_of_replies {x y : X} {os : List O} {rs : List R}
    (h : replies step x os = some (rs, y)) : follow step x os = some y := by
  -- by induction on the operations
  induction os generalizing x rs with
  | nil =>
    obtain ⟨-, rfl⟩ := Prod.mk.inj (Option.some.inj h)
    rfl
  | cons o os ih =>
    simp only [replies] at h
    split at h
    · exact absurd h (by simp)
    · next r x' hstep =>
      split at h
      · exact absurd h (by simp)
      · next rs' y' hrest =>
        obtain ⟨-, rfl⟩ := Prod.mk.inj (Option.some.inj h)
        rw [follow, hstep]
        exact ih hrest

theorem follow_single {x y : X} {o : O} {r : R} (h : step x o = some (r, y)) :
    follow step x [o] = some y := by
  rw [follow, h]
  rfl

/-- Runs one after the other. -/
theorem follow_append (x : X) (os os' : List O) :
    follow step x (os ++ os') = (follow step x os).bind fun y => follow step y os' := by
  induction os generalizing x with
  | nil => rfl
  | cons o os ih =>
    rw [List.cons_append, follow, follow, Option.bind_assoc]
    exact congrArg (step x o).bind (funext fun y => ih y.2)

/-- What holds along a run holds of the operation behind any beginning of it. -/
theorem Along.of_follow {x y : X} {os os' : List O} {o : O}
    (h : Along step P x (os ++ o :: os')) (hf : follow step x os = some y) : P y o := by
  induction os generalizing x with
  | nil =>
    obtain rfl := Option.some.inj hf
    exact h.1
  | cons a os ih =>
    obtain ⟨⟨r, x'⟩, hstep, hrest⟩ := Option.bind_eq_some_iff.mp hf
    exact ih (h.2 r x' hstep) hrest

/-- What holds along a run holds along the end of it. -/
theorem Along.of_append_right {x y : X} {os os' : List O} (h : Along step P x (os ++ os'))
    (hf : follow step x os = some y) : Along step P y os' := by
  induction os generalizing x with
  | nil =>
    obtain rfl := Option.some.inj hf
    exact h
  | cons a os ih =>
    obtain ⟨⟨r, x'⟩, hstep, hrest⟩ := Option.bind_eq_some_iff.mp hf
    exact ih (h.2 r x' hstep) hrest

/-- What holds along a run holds along the beginning of it. -/
theorem Along.of_append_left {x : X} {os os' : List O} (h : Along step P x (os ++ os')) :
    Along step P x os := by
  induction os generalizing x with
  | nil => exact trivial
  | cons a os ih => exact ⟨h.1, fun r x' hs => ih (h.2 r x' hs)⟩

/-- What holds along two runs holds along the one behind the other. -/
theorem Along.append {x y : X} {os os' : List O} (h : Along step P x os)
    (hf : follow step x os = some y) (h' : Along step P y os') : Along step P x (os ++ os') := by
  induction os generalizing x with
  | nil =>
    obtain rfl := Option.some.inj hf
    exact h'
  | cons a os ih =>
    obtain ⟨⟨r, x'⟩, hstep, hrest⟩ := Option.bind_eq_some_iff.mp hf
    exact (along_cons_iff hstep).mpr ⟨h.1, ih (h.2 r x' hstep) hrest⟩

/-- A condition on the operations alone. -/
theorem along_of_forall {Q : O → Prop} {os : List O} (h : ∀ o ∈ os, Q o) (x : X) :
    Along step (fun _ o => Q o) x os := by
  induction os generalizing x with
  | nil => exact trivial
  | cons a os ih =>
    exact ⟨h a List.mem_cons_self, fun _ x' _ =>
      ih (fun o ho => h o (List.mem_cons_of_mem a ho)) x'⟩

namespace Reaches

/-- A run that can be performed and satisfies `P` throughout reaches the state it ends in. -/
theorem of_follow {x y : X} {os : List O} (h : follow step x os = some y)
    (hP : Along step P x os) : Reaches step P x os y := by
  induction os generalizing x with
  | nil =>
    obtain rfl := Option.some.inj h
    exact .refl x
  | cons o os ih =>
    obtain ⟨⟨r, x'⟩, hstep, hrest⟩ := Option.bind_eq_some_iff.mp h
    exact .cons hP.1 hstep (ih hrest (hP.2 r x' hstep))

/-- **The invariant rule.** What one operation preserves, a run preserves. -/
theorem invariant {I : X → Prop}
    (hstep : ∀ x o r y, I x → P x o → step x o = some (r, y) → I y)
    {x y : X} {os : List O} (h : Reaches step P x os y) (hx : I x) : I y := by
  induction h with
  | refl x => exact hx
  | cons hP he _ ih => exact ih (hstep _ _ _ _ hx hP he)

/-- What an invariant says of every operation holds along the run. -/
theorem along {I : X → Prop} {Q : X → O → Prop} (hQ : ∀ x o, I x → P x o → Q x o)
    (hstep : ∀ x o r y, I x → P x o → step x o = some (r, y) → I y)
    {x y : X} {os : List O} (h : Reaches step P x os y) (hx : I x) : Along step Q x os := by
  induction h with
  | refl x => trivial
  | cons hP he _ ih =>
    exact (along_cons_iff he).mpr ⟨hQ _ _ hx hP, ih (hstep _ _ _ _ hx hP he)⟩

theorem mono {Q : X → O → Prop} (hPQ : ∀ x o, P x o → Q x o) {x y : X} {os : List O}
    (h : Reaches step P x os y) : Reaches step Q x os y := by
  induction h with
  | refl x => exact .refl x
  | cons hP he _ ih => exact .cons (hPQ _ _ hP) he ih

theorem trans {x y z : X} {os os' : List O} (h : Reaches step P x os y)
    (h' : Reaches step P y os' z) : Reaches step P x (os ++ os') z := by
  induction h with
  | refl x => exact h'
  | cons hP he _ ih => exact .cons hP he (ih h')

/-- A run of one operation. -/
theorem single {x y : X} {o : O} {r : R} (hP : P x o) (he : step x o = some (r, y)) :
    Reaches step P x [o] y :=
  .cons hP he (.refl y)

end Reaches

end Framework
