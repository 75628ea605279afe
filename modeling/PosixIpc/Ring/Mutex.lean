import PosixIpc.Framework.Locking
import PosixIpc.Ring.Buffer

/-!
# The ring buffer with a mutex

`ringbuffer4` of `examples/SPSC.cpp` has a mutex, which is held from the beginning of `push` and
`pop` to their end: `push` tries to take it again and again, `pop` waits for it in the constructor
of a `std::lock_guard`. The indices are not atomic, and the members are read where they are named.

Unlike the other buffers it may have any number of producers and consumers. The calls take effect in
the order in which they give the mutex back, as operations on the bounded queue
(`ringbuffer_mutex_linearizable`).
-/

namespace PosixIpc

open Framework

namespace RingBuffer

variable {T : Type}

/-! ### The functions -/

/-- `push`, between `try_lock` and `unlock`. -/
def pushLocked (width capacity : Nat) (val : T) : Prog (@Access.Ret T) Bool :=
  .step (.load .writeIdx) fun writeIdx =>
    .step (.load .readIdx) fun readIdx =>
      if nextIdx width capacity writeIdx = readIdx then .ret false
      else .step (.load .writeIdx) fun writeIdx' =>
        pushAt writeIdx' (nextIdx width capacity writeIdx) val

/-- `pop`, while its guard is there. -/
def popLocked (width capacity : Nat) : Prog (@Access.Ret T) (Option T) :=
  .step (.load .readIdx) fun readIdx =>
    .step (.load .writeIdx) fun writeIdx =>
      if readIdx = writeIdx then .ret none
      else .step (.load .readIdx) fun readIdx' =>
        .step (.get readIdx') fun val =>
          .step (.load .readIdx) fun readIdx'' =>
            .step (.store .readIdx (nextIdx width capacity readIdx'')) fun _ => .ret (some val)

/-- The mutex. Waiting for it is trying until it is free. -/
def mutex : TryLock Bool where
  attempt locked := (!locked, true)
  release _ := false
  held := id
  attempt_fst _ := rfl
  held_attempt _ := rfl
  held_release _ := rfl

/-- What a call does under the mutex. -/
def Call.locked (capacity : Nat) : Call T → Unit → Prog (@Access.Ret T) (Answer T × Unit)
  | .push val, _ => pushLocked 32 capacity val >>= fun ok => .ret (.pushed ok, ())
  | .pop, _ => popLocked 32 capacity >>= fun val => .ret (.popped val, ())

/-- Threads with a buffer. -/
abbrev Crew (T I : Type) := Team (@Access.Ret T) I Bool (Call T) (Answer T) Unit (RingBuffer T)

namespace Crew

variable {I : Type}

/-- The constructor, with elements of some value. -/
def start (data : List T) : Crew T I := Team.start false () { data := data }

/-- The next step of one of the threads. -/
def step [DecidableEq I] (capacity : Nat) :
    Crew T I → TeamAction I (Call T) → Option (Unit × Crew T I) :=
  Team.step mutex exec (Call.locked capacity)

/-- The calls that are over, as events on a queue, in the order in which they gave the mutex back.
-/
def events (y : Crew T I) : List (Fifo.Event T) := y.log.map fun e => e.2.1.event e.2.2

end Crew

/-! ### Whole calls -/

section Calls

variable {n : Nat} {b : RingBuffer T} {l : List T}

/-- The elements `l` are in the window between the indices. -/
structure Contains (n : Nat) (b : RingBuffer T) (l : List T) : Prop where
  length_eq : b.data.length = n
  holds : Circular.Holds (fun i => b.data[i]?) n b.readIdx b.writeIdx l

/-- **A `push`** under the mutex is a step of the bounded queue. -/
theorem runs_pushLocked (hn : n < 2 ^ 32) (h : b.Contains n l) (val : T) :
    Runs exec (pushLocked 32 n val) b fun ok b' => ∃ l', b'.Contains n l' ∧
      Fifo.Bounded (n - 1) l ((Call.push val).event (.pushed ok)) l' := by
  have hread := h.holds.read_lt
  have hwrite := h.holds.write_lt
  have hfull := Circular.next_eq_iff hread hwrite
  unfold pushLocked
  rw [← nextIdx_eq hwrite hn] at hfull
  refine Runs.step rfl (Runs.step rfl ?_)
  change Runs exec (ite (nextIdx 32 n b.writeIdx = b.readIdx) _ _) b _
  split
  · next heq =>
    -- as many elements as there is room for
    have hdist := hfull.mp heq
    rw [← h.holds.length_eq] at hdist
    exact Runs.ret ⟨l, h, .refuse l (Nat.eq_sub_of_add_eq hdist)⟩
  · next hne =>
    have hroom : Circular.dist n b.readIdx b.writeIdx + 1 < n := by
      have hlt := Circular.dist_lt hread hwrite
      have hne' := mt hfull.mpr hne
      omega
    have hlt : b.writeIdx < b.data.length := by
      rw [h.length_eq]
      exact hwrite
    refine Runs.step rfl (Runs.step (if_pos hlt) (Runs.step rfl
      (Runs.ret ⟨l ++ [val], ⟨?_, ?_⟩, ?_⟩)))
    · exact List.length_set.trans h.length_eq
    · -- first the element behind the window is written, then the index moved on
      have hset : Circular.Holds (fun i => (b.data.set b.writeIdx val)[i]?) n b.readIdx b.writeIdx
          l :=
        h.holds.congr fun i hi => List.getElem?_set_ne (Ne.symm hi)
      have happend := hset.append hroom (List.getElem?_set_self hlt)
      rw [← nextIdx_eq hwrite hn] at happend
      exact happend
    · refine .accept l val ?_
      rw [h.holds.length_eq]
      exact Nat.lt_sub_of_add_lt hroom

/-- **A `pop`**, likewise. -/
theorem runs_popLocked (hn : n < 2 ^ 32) (h : b.Contains n l) :
    Runs exec (popLocked 32 n) b fun val b' => ∃ l', b'.Contains n l' ∧
      Fifo.Bounded (n - 1) l (Call.pop.event (.popped val)) l' := by
  unfold popLocked
  refine Runs.step rfl (Runs.step rfl ?_)
  change Runs exec (ite (b.readIdx = b.writeIdx) _ _) b _
  -- the window is empty exactly if the indices are equal, the test of the source
  cases l with
  | nil =>
    rw [if_pos (h.holds.eq_nil_iff.mp rfl)]
    exact Runs.ret ⟨[], h, .peek []⟩
  | cons a l =>
    have hne : b.readIdx ≠ b.writeIdx := fun heq =>
      List.cons_ne_nil a l (h.holds.eq_nil_iff.mpr heq)
    have hget : exec (.get b.readIdx) b = some (a, b) := by
      change (b.data[b.readIdx]?).map _ = _
      rw [show b.data[b.readIdx]? = some a from h.holds.get_read]
      rfl
    rw [if_neg hne]
    refine Runs.step rfl (Runs.step hget (Runs.step rfl (Runs.step rfl
      (Runs.ret ⟨l, ⟨h.length_eq, ?_⟩, .pop a l⟩))))
    have htail := h.holds.tail
    rw [← nextIdx_eq h.holds.read_lt hn] at htail
    exact htail

/-- The calls so far are a history of the queue that ends with the elements in the window. -/
def Serves (n : Nat) (log : List (Call T × Answer T)) (b : RingBuffer T) : Prop :=
  ∃ l, b.Contains n l ∧ Fifo.History (n - 1) (log.map fun e => e.1.event e.2) l

/-- **Every call completes**, and is the next operation of the history. -/
theorem completes_locked (hn : n < 2 ^ 32) :
    Team.Completes exec (Call.locked n) fun log _ (b : RingBuffer T) => Serves n log b := by
  rintro log - b call ⟨l, hb, hlog⟩
  -- the guard runs the locked function to its end, so each call adds one step of the history
  cases call with
  | push val =>
    obtain ⟨ok, b', hrun, l', hb', hstep⟩ := runs_pushLocked hn hb val
    refine ⟨.pushed ok, (), b', ?_, l', hb', ?_⟩
    · rw [Call.locked, Prog.run_bind, hrun]
      rfl
    · rw [List.map_append]
      exact hlog.concat hstep
  | pop =>
    obtain ⟨val, b', hrun, l', hb', hstep⟩ := runs_popLocked hn hb
    refine ⟨.popped val, (), b', ?_, l', hb', ?_⟩
    · rw [Call.locked, Prog.run_bind, hrun]
      rfl
    · rw [List.map_append]
      exact hlog.concat hstep

/-- The new buffer is empty. -/
theorem serves_start {data : List T} (hpos : 0 < data.length) :
    Serves data.length [] { data := data } := by
  refine ⟨[], ⟨rfl, hpos, hpos, rfl, fun k hk => absurd hk (Nat.not_lt_zero k)⟩, .nil⟩

end Calls

end RingBuffer

open RingBuffer in
/-- **The buffer with a mutex.** Any number of threads call `push` and `pop`, their steps (attempts
to take the mutex, single accesses) in any order. At most one of them is between taking the mutex
and giving it back. The calls that are over are, in the order in which they gave it back and with
the answers they returned, a history of the queue with room for `capacity - 1` elements, and
whenever the mutex is free the contents of that queue are in the window between the indices. A
thread that has the mutex gives it back by steps of its own, and no thread in a call is ever without
a next step. -/
theorem ringbuffer_mutex_linearizable {I : Type} [DecidableEq I] {data : List T}
    {acts : List (TeamAction I (Call T))} {y : Crew T I} (hpos : 0 < data.length)
    (hn : data.length < 2 ^ 32)
    (hr : Reaches (Crew.step data.length) (fun _ _ => True) (Crew.start data) acts y) :
    (∀ i j, (y.phase i).Holds → (y.phase j).Holds → i = j) ∧
    (∃ l, Fifo.History (data.length - 1) y.events l ∧
      (y.Free → y.world.Contains data.length l)) ∧
    (∀ i, (y.phase i).Holds → ∃ k z,
      follow (Crew.step data.length) y (List.replicate k (.step i)) = some z ∧ z.Free) ∧
    ∀ i, y.phase i ≠ .idle → (y.step data.length (.step i)).isSome := by
  have hinv : y.Inv mutex exec (Call.locked data.length) () { data := data } :=
    Team.inv_of_reaches rfl hr
  have hJ := @completes_locked T _ hn
  have h₀ := serves_start hpos
  refine ⟨hinv.alone, ?_, fun i hi => hinv.exists_free hJ h₀ hi, fun i hi =>
    hinv.step_isSome hJ h₀ hi⟩
  -- the finished calls explain the buffer as soon as nobody is inside
  obtain ⟨u, b, ⟨l, hb, hlog⟩, -, hfree⟩ := hinv.justified hJ h₀
  rw [List.map_map] at hlog
  refine ⟨l, hlog, fun h => ?_⟩
  rw [(hfree h).2]
  exact hb

namespace RingBuffer

/-- A thread pushes while another one tries to take the mutex for its `pop`, which it then gets. -/
def contendedRun : List (TeamAction Bool (Call Nat)) :=
  [.call true (.push 7), .call false .pop, .step true, .step false] ++
    List.replicate 7 (.step true) ++ List.replicate 9 (.step false)

end RingBuffer

open RingBuffer in
/-- The value of the thread that had the mutex first is popped by the one that waited for it. -/
theorem ringbuffer_mutex_linearizable_contended : ∃ y : Crew Nat Bool,
    Reaches (Crew.step 3) (fun _ _ => True) (Crew.start [0, 0, 0]) contendedRun y ∧
    y.log = [(true, .push 7, .pushed true), (false, .pop, .popped (some 7))] ∧
    ∃ l, Fifo.History 2 y.events l ∧ y.world.Contains 3 l := by
  have hends : (follow (Crew.step 3) (Crew.start [0, 0, 0]) contendedRun).map
      (fun y : Crew Nat Bool => (y.log, decide ((y.phase true).Holds ∨ (y.phase false).Holds))) =
      some ([(true, .push 7, .pushed true), (false, .pop, .popped (some 7))], false) := by
    decide +kernel
  obtain ⟨y, hy, hobs⟩ := Option.map_eq_some_iff.mp hends
  obtain ⟨hlog, hphase⟩ := Prod.mk.inj hobs
  have hr : Reaches (Crew.step 3) (fun _ _ => True) (Crew.start [0, 0, 0]) contendedRun y :=
    .of_follow hy (along_of_forall (fun _ _ => trivial) _)
  -- neither of the two threads is in the critical section at the end
  have hfree : y.Free := by
    have hnot := of_decide_eq_false hphase
    intro i hi
    cases i with
    | true => exact hnot (.inl hi)
    | false => exact hnot (.inr hi)
  obtain ⟨-, ⟨l, hhistory, hcontains⟩, -⟩ :=
    @ringbuffer_mutex_linearizable Nat Bool _ [0, 0, 0] _ y (by decide) (by decide) hr
  exact ⟨y, hr, hlog, l, hhistory, hcontains hfree⟩

end PosixIpc
