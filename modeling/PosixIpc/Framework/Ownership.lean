import Mathlib.Data.List.Nodup
import PosixIpc.Framework.Run

/-!
# Objects that own handles

Handles (descriptors, mappings, buffers) are acquired, held by objects, and released. A `Ledger`
lists what was acquired and what was released so far. `Ledger.Accounts held lost` is the balance of
the books: what was acquired and not released is held by an object or lost, and no handle is in two
hands. Handles may be issued again once they are released, so everything is said in numbers of
occurrences.

The objects live in numbered cells. A cell is empty once its object is destroyed, and its number is
not used again. A move constructor is a function on objects, from the source to the pair of the new
object and what is left of the source; a move assignment also starts from its target. `Moves` says
that the handles go with the target. Then move construction changes nothing about what is held
(`count_moveConstruct`), and move assignment loses exactly what the target held
(`count_moveAssign`).

`leaks_of_reaches` is the rule for runs: if each step loses something exactly if it leaks, nothing
is lost in a run exactly if no step of it leaks.
-/

namespace Framework

variable {H Obj : Type}

/-! ### Ledgers -/

/-- What was acquired and what was released, in order. -/
structure Ledger (H : Type) where
  acquired : List H
  released : List H
  deriving DecidableEq, Repr

namespace Ledger

/-- Enter what was acquired and what was released. -/
def record (l : Ledger H) (acquired released : List H) : Ledger H :=
  ⟨l.acquired ++ acquired, l.released ++ released⟩

@[simp] theorem record_nil (l : Ledger H) : l.record [] [] = l := by
  simp [record]

/-- Entries are made one after the other. -/
theorem record_record (l : Ledger H) (a r a' r' : List H) :
    (l.record a r).record a' r' = l.record (a ++ a') (r ++ r') := by
  simp [record]

@[simp] theorem acquired_record (l : Ledger H) (a r : List H) :
    (l.record a r).acquired = l.acquired ++ a := rfl

@[simp] theorem released_record (l : Ledger H) (a r : List H) :
    (l.record a r).released = l.released ++ r := rfl

variable [DecidableEq H] {l : Ledger H} {held held' lost new : List H}

/-- Every handle was released as often as it was acquired. -/
def Settled (l : Ledger H) : Prop := ∀ h, l.acquired.count h = l.released.count h

/-- What was acquired was released, or is held, or is lost; and it is in one hand only. -/
structure Accounts (l : Ledger H) (held lost : List H) : Prop where
  balance : ∀ h, l.acquired.count h = l.released.count h + held.count h + lost.count h
  single : ∀ h, held.count h + lost.count h ≤ 1

/-- An empty ledger accounts for nothing held. -/
theorem accounts_empty : Accounts (⟨[], []⟩ : Ledger H) [] [] :=
  ⟨fun _ => rfl, fun _ => Nat.zero_le 1⟩

/-- The order in which things are held is of no importance. -/
theorem Accounts.congr (h : l.Accounts held lost) (hc : ∀ a, held'.count a = held.count a) :
    l.Accounts held' lost :=
  ⟨fun a => by rw [hc a]; exact h.balance a, fun a => by rw [hc a]; exact h.single a⟩

/-- The handles `new` come to be held; others, `t`, were there for a while. -/
theorem Accounts.gain {l' : Ledger H} {t : List H} (h : l.Accounts held lost)
    (hacquired : ∀ a, l'.acquired.count a = l.acquired.count a + new.count a + t.count a)
    (hreleased : l'.released = l.released ++ t) (hnew : new.Nodup)
    (hfresh : ∀ a ∈ new, a ∉ held ∧ a ∉ lost) : l'.Accounts (held ++ new) lost := by
  refine ⟨fun a => ?_, fun a => ?_⟩
  · -- `t` is on both sides of the books
    have hb := h.balance a
    rw [hacquired a, hreleased]
    simp only [List.count_append]
    omega
  · have hs := h.single a
    rw [List.count_append]
    by_cases ha : a ∈ new
    · -- in no hand before, and acquired once
      have h₁ := List.count_eq_zero.mpr (hfresh a ha).1
      have h₂ := List.count_eq_zero.mpr (hfresh a ha).2
      have h₃ := List.nodup_iff_count_le_one.mp hnew a
      omega
    · have h₁ := List.count_eq_zero.mpr ha
      omega

/-- What is held is let go of without being released. -/
theorem Accounts.lose (h : l.Accounts held lost)
    (hc : ∀ a, held'.count a + new.count a = held.count a) : l.Accounts held' (lost ++ new) := by
  refine ⟨fun a => ?_, fun a => ?_⟩
  · have hb := h.balance a
    have hc' := hc a
    rw [List.count_append]
    omega
  · have hs := h.single a
    have hc' := hc a
    rw [List.count_append]
    omega

/-- What is held is released. -/
theorem Accounts.release (h : l.Accounts held lost)
    (hc : ∀ a, held'.count a + new.count a = held.count a) :
    (l.record [] new).Accounts held' lost := by
  refine ⟨fun a => ?_, fun a => ?_⟩
  · have hb := h.balance a
    have hc' := hc a
    simp only [acquired_record, released_record, List.append_nil, List.count_append]
    omega
  · have hs := h.single a
    have hc' := hc a
    omega

/-- What is still held, and what was taken from what was held, was held. -/
theorem mem_of_count (hc : ∀ a, held'.count a + new.count a = held.count a) {a : H}
    (ha : a ∈ held' ∨ a ∈ new) : a ∈ held := by
  refine List.count_pos_iff.mp ?_
  have hc' := hc a
  rcases ha with ha | ha
  · have hpos := List.count_pos_iff.mpr ha
    omega
  · have hpos := List.count_pos_iff.mpr ha
    omega

/-- What is taken from what is held is not held any more. -/
theorem Accounts.not_mem (h : l.Accounts held lost)
    (hc : ∀ a, held'.count a + new.count a = held.count a) {a : H} (ha : a ∈ new) : a ∉ held' := by
  intro ha'
  have hs := h.single a
  have hc' := hc a
  have h₁ := List.count_pos_iff.mpr ha
  have h₂ := List.count_pos_iff.mpr ha'
  omega

/-- A handle that was released as often as acquired is in no hand. -/
theorem Accounts.fresh (h : l.Accounts held lost) {a : H}
    (ha : l.acquired.count a = l.released.count a) : a ∉ held ∧ a ∉ lost := by
  have hb := h.balance a
  constructor
  · exact List.count_eq_zero.mp (by omega)
  · exact List.count_eq_zero.mp (by omega)

/-- With nothing held, the books are even exactly if nothing is lost. -/
theorem Accounts.settled_iff (h : l.Accounts [] lost) : l.Settled ↔ lost = [] := by
  constructor
  · intro hs
    -- whatever is lost was acquired once more than it was released
    refine List.eq_nil_iff_forall_not_mem.mpr fun a ha => ?_
    have hb := h.balance a
    have hs' := hs a
    have hpos := List.count_pos_iff.mpr ha
    omega
  · rintro rfl a
    exact h.balance a

/-- Nothing is released that was not acquired. -/
theorem Accounts.released_le (h : l.Accounts held lost) (a : H) :
    l.released.count a ≤ l.acquired.count a := by
  have hb := h.balance a
  omega

end Ledger

/-! ### Cells -/

section Cells

variable {owned : Obj → List H} {construct : Obj → Obj × Obj} {assign : Obj → Obj → Obj × Obj}
  {cs cs' : List (Option Obj)} {i : Nat} {o : Obj}

/-- The object in a cell. -/
def live (cs : List (Option Obj)) (i : Nat) : Option Obj := cs[i]?.join

/-- What the objects hold. -/
def held (owned : Obj → List H) (cs : List (Option Obj)) : List H :=
  cs.flatMap fun o => o.elim [] owned

/-- The handles go with the target of a move, construction or assignment, and the source keeps
none. -/
structure Moves (owned : Obj → List H) (construct : Obj → Obj × Obj)
    (assign : Obj → Obj → Obj × Obj) : Prop where
  construct_target : ∀ o, owned (construct o).1 = owned o
  construct_source : ∀ o, owned (construct o).2 = []
  assign_target : ∀ d o, owned (assign d o).1 = owned o
  assign_source : ∀ d o, owned (assign d o).2 = []

/-- What one more object holds comes last. -/
theorem held_append_some (owned : Obj → List H) (cs : List (Option Obj)) (o : Obj) :
    held owned (cs ++ [some o]) = held owned cs ++ owned o := by
  simp [held]

/-- What an object holds is held. -/
theorem mem_held_of_live {a : H} (h : live cs i = some o) (ha : a ∈ owned o) :
    a ∈ held owned cs :=
  List.mem_flatMap.mpr ⟨some o, List.mem_of_getElem? (Option.join_eq_some_iff.mp h), ha⟩

/-- All objects are gone. -/
theorem held_eq_nil (h : ∀ i, live cs i = none) : held owned cs = [] := by
  refine List.flatMap_eq_nil_iff.mpr fun o ho => ?_
  obtain ⟨i, hi⟩ := List.mem_iff_getElem?.mp ho
  have hlive := h i
  rw [live, hi, Option.join_some] at hlive
  rw [hlive]
  rfl

/-- What holds of the objects, and of the one that is put into a cell, holds afterwards. -/
theorem forall_set {P : Obj → Prop} {o' : Option Obj} (ho' : ∀ a, o' = some a → P a)
    (hc : ∀ i o, live cs i = some o → P o) : ∀ j o, live (cs.set i o') j = some o → P o := by
  intro j o h
  by_cases hji : j = i
  · rw [hji, live, List.getElem?_set_self'] at h
    -- writing behind the end of the list does nothing
    cases hci : cs[i]? with
    | none =>
      rw [hci] at h
      exact absurd h (by simp)
    | some d =>
      rw [hci] at h
      exact ho' o h
  · rw [live, List.getElem?_set_ne (Ne.symm hji)] at h
    exact hc j o h

/-- A cell that is live with one more object was live before, or is the new one. -/
theorem mem_of_live_append {o' : Obj} {j : Nat} (h : live (cs ++ [some o']) j = some o) :
    live cs j = some o ∨ o = o' := by
  rcases Nat.lt_or_ge j cs.length with hj | hj
  · rw [live, List.getElem?_append_left hj] at h
    exact .inl h
  · rw [live, List.getElem?_append_right hj] at h
    -- only the first cell behind the others is there
    cases hd : j - cs.length with
    | zero =>
      rw [hd] at h
      exact .inr (Option.some.inj h).symm
    | succ n =>
      rw [hd] at h
      exact absurd h (by simp)

/-- Setting a cell leaves the others as they are. -/
theorem live_set_ne {j : Nat} (h : j ≠ i) (o' : Option Obj) : live (cs.set i o') j = live cs j := by
  rw [live, List.getElem?_set_ne (Ne.symm h), live]

/-- Move construction from `src`: a new cell. -/
def moveConstruct (construct : Obj → Obj × Obj) (cs : List (Option Obj)) (src : Nat) :
    Option (List (Option Obj)) :=
  match live cs src with
  | none => none
  | some o => some (cs.set src (some (construct o).2) ++ [some (construct o).1])

/-- Move assignment to `dst` from `src`. Assigning an object to itself does nothing. -/
def moveAssign (assign : Obj → Obj → Obj × Obj) (cs : List (Option Obj)) (dst src : Nat) :
    Option (List (Option Obj)) :=
  match live cs dst, live cs src with
  | some d, some o =>
    some (if dst = src then cs
      else (cs.set dst (some (assign d o).1)).set src (some (assign d o).2))
  | _, _ => none

/-- Moving into a new object needs a live source. -/
theorem isSome_moveConstruct {src : Nat} :
    (moveConstruct construct cs src).isSome ↔ (live cs src).isSome := by
  unfold moveConstruct
  cases live cs src <;> simp

/-- Moving into an object needs two live ones. -/
theorem isSome_moveAssign {dst src : Nat} :
    (moveAssign assign cs dst src).isSome ↔ (live cs dst).isSome ∧ (live cs src).isSome := by
  unfold moveAssign
  cases live cs dst <;> cases live cs src <;> simp

/-- Moving into a new object, taken apart. -/
theorem moveConstruct_inv {src : Nat} (h : moveConstruct construct cs src = some cs') :
    ∃ o, live cs src = some o ∧
      cs' = cs.set src (some (construct o).2) ++ [some (construct o).1] := by
  unfold moveConstruct at h
  split at h
  · exact absurd h (by simp)
  · next o ho => exact ⟨o, ho, (Option.some.inj h).symm⟩

/-- An assignment did nothing, or was between two cells. -/
theorem moveAssign_inv {dst src : Nat} (h : moveAssign assign cs dst src = some cs') :
    (dst = src ∧ cs' = cs) ∨
      (dst ≠ src ∧ ∃ d o, live cs dst = some d ∧ live cs src = some o ∧
        cs' = (cs.set dst (some (assign d o).1)).set src (some (assign d o).2)) := by
  unfold moveAssign at h
  split at h
  · next d o hd ho =>
    split at h
    · next heq => exact .inl ⟨heq, (Option.some.inj h).symm⟩
    · next heq => exact .inr ⟨heq, d, o, hd, ho, (Option.some.inj h).symm⟩
  · exact absurd h (by simp)

/-- What a move assignment overwrites. -/
def overwritten (owned : Obj → List H) (cs : List (Option Obj)) (dst src : Nat) : List H :=
  if dst = src then [] else (live cs dst).elim [] owned

/-- Nothing is overwritten exactly if the object is assigned to itself or holds nothing. -/
theorem overwritten_eq_nil_iff {Q : Obj → Prop} (hQ : ∀ o, owned o = [] ↔ ¬ Q o) (dst src : Nat) :
    overwritten owned cs dst src = [] ↔ ¬ (dst ≠ src ∧ ∃ o ∈ live cs dst, Q o) := by
  unfold overwritten
  by_cases heq : dst = src
  · -- the guard of the assignment operator
    rw [if_pos heq]
    exact iff_of_true rfl fun h => h.1 heq
  · rw [if_neg heq]
    cases live cs dst with
    | none =>
      refine iff_of_true rfl ?_
      rintro ⟨-, o, ho, -⟩
      exact absurd ho (by simp)
    | some o =>
      refine (hQ o).trans (not_iff_not.mpr ⟨fun h => ⟨heq, o, rfl, h⟩, ?_⟩)
      rintro ⟨-, o', ho', h⟩
      obtain rfl := Option.some.inj ho'
      exact h

/-- What holds of the objects, and of both ends of a move, holds after a move construction. -/
theorem forall_moveConstruct {P : Obj → Prop}
    (hP : ∀ o, P o → P (construct o).1 ∧ P (construct o).2) {src : Nat}
    (h : moveConstruct construct cs src = some cs') (hc : ∀ i o, live cs i = some o → P o) :
    ∀ i o, live cs' i = some o → P o := by
  obtain ⟨d, hd, rfl⟩ := moveConstruct_inv h
  obtain ⟨htarget, hsource⟩ := hP d (hc src d hd)
  intro i o hi
  rcases mem_of_live_append hi with hi | rfl
  · exact forall_set (fun a ha => Option.some.inj ha ▸ hsource) hc i o hi
  · exact htarget

/-- What holds of the objects, and of both ends of a move, holds after a move assignment. -/
theorem forall_moveAssign {P : Obj → Prop}
    (hP : ∀ d o, P d → P o → P (assign d o).1 ∧ P (assign d o).2) {dst src : Nat}
    (h : moveAssign assign cs dst src = some cs') (hc : ∀ i o, live cs i = some o → P o) :
    ∀ i o, live cs' i = some o → P o := by
  rcases moveAssign_inv h with ⟨-, rfl⟩ | ⟨-, d, o, hd, ho, rfl⟩
  · exact hc
  · obtain ⟨htarget, hsource⟩ := hP d o (hc dst d hd) (hc src o ho)
    -- first the target is written, then the source
    exact forall_set (fun a ha => Option.some.inj ha ▸ hsource)
      (forall_set (fun a ha => Option.some.inj ha ▸ htarget) hc)

section Counting

variable [DecidableEq H]

/-- Changing what is in one cell. -/
theorem count_held_set (owned : Obj → List H) (h : live cs i = some o) (o' : Option Obj) (a : H) :
    (held owned (cs.set i o')).count a + (owned o).count a =
      (held owned cs).count a + (o'.elim [] owned).count a := by
  -- the other cells contribute to both sides alike
  induction cs generalizing i with
  | nil => exact absurd h (by simp [live])
  | cons d cs ih =>
    cases i with
    | zero =>
      have hd : d = some o := h
      subst hd
      simp only [held, List.set_cons_zero, List.flatMap_cons, List.count_append, Option.elim_some]
      omega
    | succ i =>
      have hrest := ih (i := i) h
      simp only [held, List.set_cons_succ, List.flatMap_cons, List.count_append] at hrest ⊢
      omega

/-- **Move construction keeps what is held.** -/
theorem count_moveConstruct (hm : Moves owned construct assign) {src : Nat}
    (h : moveConstruct construct cs src = some cs') (a : H) :
    (held owned cs').count a = (held owned cs).count a := by
  obtain ⟨o, ho, rfl⟩ := moveConstruct_inv h
  have hset := count_held_set owned ho (some (construct o).2) a
  rw [Option.elim_some, hm.construct_source, List.count_nil] at hset
  rw [held_append_some, List.count_append, hm.construct_target]
  omega

/-- **Move assignment loses what the target held.** -/
theorem count_moveAssign (hm : Moves owned construct assign) {dst src : Nat}
    (h : moveAssign assign cs dst src = some cs') (a : H) :
    (held owned cs').count a + (overwritten owned cs dst src).count a =
      (held owned cs).count a := by
  unfold overwritten
  rcases moveAssign_inv h with ⟨heq, rfl⟩ | ⟨heq, d, o, hd, ho, rfl⟩
  · rw [if_pos heq]
    rfl
  · -- the source is another cell, and still there when the target has changed
    have ho' : live (cs.set dst (some (assign d o).1)) src = some o := by
      rw [live_set_ne (Ne.symm heq)]
      exact ho
    have hfirst := count_held_set owned hd (some (assign d o).1) a
    have hsecond := count_held_set owned ho' (some (assign d o).2) a
    rw [if_neg heq, hd]
    simp only [Option.elim_some, hm.assign_target, hm.assign_source, List.count_nil]
      at hfirst hsecond ⊢
    omega

end Counting

end Cells

/-! ### Runs -/

section Runs

variable {X O R : Type} {step : X → O → Option (R × X)} {P Leaks : X → O → Prop}

/-- What a step releases is in no hand afterwards. -/
def ReleasesUnheld (step : X → O → Option (R × X)) (ledger : X → Ledger H) (held : X → List H)
    (x : X) (o : O) : Prop :=
  ∀ r y, step x o = some (r, y) →
    ∃ l, (ledger y).released = (ledger x).released ++ l ∧ ∀ a ∈ l, a ∉ held y

/-- **Leaks add up.** If every step loses something exactly if it leaks, a run loses nothing exactly
if none of its steps leaks. -/
theorem leaks_of_reaches {I : X → List H → Prop}
    (hstep : ∀ x o r y lost, I x lost → P x o → step x o = some (r, y) →
      ∃ l, I y (lost ++ l) ∧ (l = [] ↔ ¬ Leaks x o))
    {x y : X} {os : List O} (hr : Reaches step P x os y) {lost : List H} (hx : I x lost) :
    ∃ l, I y (lost ++ l) ∧ (l = [] ↔ Along step (fun x o => ¬ Leaks x o) x os) := by
  -- what is lost is only ever appended to
  induction hr generalizing lost with
  | refl x =>
    refine ⟨[], ?_, iff_of_true rfl trivial⟩
    rw [List.append_nil]
    exact hx
  | cons hP he _ ih =>
    -- what the first step loses, and what the rest does
    obtain ⟨l₁, hy, h₁⟩ := hstep _ _ _ _ lost hx hP he
    obtain ⟨l₂, hz, h₂⟩ := ih hy
    refine ⟨l₁ ++ l₂, ?_, ?_⟩
    · rw [← List.append_assoc]
      exact hz
    · rw [List.append_eq_nil_iff, h₁, h₂, along_cons_iff he]

/-- **The books of a run.** If the books are in order in every state, and every step loses something
exactly if it leaks and releases only what is in no hand afterwards, then the latter holds of all
steps of a run, and with nothing held the books are even exactly if no step leaked. -/
theorem books_of_reaches [DecidableEq H] {I : X → List H → Prop} {ledger : X → Ledger H}
    {held : X → List H} (haccounts : ∀ x lost, I x lost → (ledger x).Accounts (held x) lost)
    (hstep : ∀ x o r y lost, I x lost → P x o → step x o = some (r, y) →
      ∃ l, I y (lost ++ l) ∧ (l = [] ↔ ¬ Leaks x o))
    (hunheld : ∀ x o lost, I x lost → P x o → ReleasesUnheld step ledger held x o)
    {x y : X} {os : List O} (hr : Reaches step P x os y) (hx : I x []) :
    Along step (ReleasesUnheld step ledger held) x os ∧
      ∃ lost, I y lost ∧
        (held y = [] → ((ledger y).Settled ↔ Along step (fun x o => ¬ Leaks x o) x os)) := by
  constructor
  · -- some list of lost handles goes with every state of the run
    refine hr.along (I := fun z => ∃ lost, I z lost) ?_ ?_ ⟨[], hx⟩
    · rintro z o ⟨lost, hz⟩ ho
      exact hunheld z o lost hz ho
    · rintro z o r z' ⟨lost, hz⟩ ho hs
      obtain ⟨l, hz', -⟩ := hstep z o r z' lost hz ho hs
      exact ⟨_, hz'⟩
  · obtain ⟨lost, hy, hlost⟩ := leaks_of_reaches hstep hr hx
    rw [List.nil_append] at hy
    refine ⟨lost, hy, fun hnil => ?_⟩
    have hacc := haccounts y lost hy
    rw [hnil] at hacc
    exact hacc.settled_iff.trans hlost

end Runs

end Framework
