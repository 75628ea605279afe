import PosixIpc.Spsc.Queue

/-!
# Whole operations

What the queue operations compute when they are run without interruption. `enqueue` takes its
decision on the two indices it loads (`SPSCQueue.decision`); after that it is a straight line of
writes (`enqueue_eq`). The run equations state the outcome of each line (`run_enqueue_full`,
`run_enqueue_inPlace`, `run_enqueue_wrap`) and of one round of `dequeue_begin`
(`run_dequeueBeginRound_empty`, `run_dequeueBeginRound_view`, `run_dequeueBeginRound_jump`) with
the bounds each of them needs, and the later modules never unfold a program again.
-/

namespace PosixIpc

open Framework

namespace SPSCQueue

/-! ### Index arithmetic -/

/-- The bytes a message with an `n`-byte payload takes up in the buffer. -/
def slot (n : Nat) : Nat := (8 + n + 7) / 8 * 8

/-- `next_index` away from the wrap of the machine word: the mask rounds up to the next multiple
of 8. -/
theorem nextIndex_eq {i n : Nat} (h : i + n + 7 < 2 ^ 64) : nextIndex i n = (i + n + 7) / 8 * 8 := by
  have hix : subW (addW (addW i n) 8) 1 = i + n + 7 := by unfold subW addW; omega
  have hmask : subW 8 1 = 7 := by decide
  -- the mask clears the low three bits, which rounds down to a multiple of 8
  unfold nextIndex
  simp only [hix, hmask]
  exact and_complW_seven h

/-- From an aligned index, the next one is a slot further. -/
theorem nextIndex_slot {i n : Nat} (hi : i % 8 = 0) (h : i + n + 15 < 2 ^ 64) :
    nextIndex i (addW 8 n) = i + slot n := by
  rw [addW_eq (by omega), nextIndex_eq (by omega)]
  unfold slot
  omega

theorem slot_mod (n : Nat) : slot n % 8 = 0 := by unfold slot; omega

theorem lt_slot (n : Nat) : 8 + n ≤ slot n := by unfold slot; omega

theorem slot_lt (n : Nat) : slot n < 8 + n + 8 := by unfold slot; omega

/-- The smallest message takes 16 bytes, so at least 8 bytes of a slot follow its header. -/
theorem sixteen_le_slot {n : Nat} (h : 0 < n) : 16 ≤ slot n := by unfold slot; omega

/-! ### The decision of `enqueue` -/

/-- What `enqueue` does with a message, given the indices it loaded. -/
inductive Decision where
  /-- Refuse the message. -/
  | full
  /-- Write it at the write index. -/
  | inPlace
  /-- Write it at the start of the buffer and a sentinel at the write index. -/
  | wrap
  deriving DecidableEq

/-- The branches of `enqueue`. -/
def decision (q : SPSCQueue) (readIx writeIx totalSize : Nat) : Decision :=
  if nextIndex writeIx totalSize < q.bufferSize then
    if writeIx < readIx ∧ readIx ≤ nextIndex writeIx totalSize then .full else .inPlace
  else if writeIx < readIx ∧ readIx ≤ addW writeIx 8 then .full
  else if readIx ≤ nextIndex 0 totalSize then .full
  else .wrap

/-- The writes of `enqueue` once it is decided. -/
def enqueueDecided (msg : Message) (writeIx : Nat) : Decision → QProg Bool
  | .full => .ret false
  | .inPlace => do
    QProg.memcpyTo (writeIx + 8) msg.payload
    QProg.memcpyTo writeIx (toLE 8 msg.size)
    publishAt (nextIndex writeIx msg.totalSize)
  | .wrap => do
    QProg.memcpyTo 8 msg.payload
    QProg.memcpyTo 0 (toLE 8 msg.size)
    QProg.memset writeIx 0 8
    publishAt (nextIndex 0 msg.totalSize)

/-- `enqueue` is: two assertions, two loads, the decision, the writes. -/
theorem enqueue_eq (q : SPSCQueue) (msg : Message) :
    q.enqueue msg =
      .step (.assert (0 < msg.size)) fun _ =>
      .step (.assert (msg.size ≤ q.maxPayloadSize)) fun _ =>
      .step (.load .readIx) fun readIx =>
      .step (.load .writeIx) fun writeIx =>
      enqueueDecided msg writeIx (q.decision readIx writeIx msg.totalSize) := by
  unfold enqueue
  simp only [QProg.assert, QProg.load, Prog.step_bind, Prog.ret_bind]
  congr 1; funext _; congr 1; funext _; congr 1; funext readIx; congr 1; funext writeIx
  -- the branches of the source and of `decision` come in the same order
  unfold decision
  split
  · split <;> rfl
  · split
    · rfl
    · split <;> rfl

end SPSCQueue

/-! ### Effects of a whole operation -/

namespace SPSCStorage

/-- The buffer with a message written at offset `i`: payload first, then the header. -/
def writeMessage (s : SPSCStorage) (i : Nat) (msg : Message) : SPSCStorage :=
  { s with buffer := (s.buffer.write (i + 8) msg.payload).write i (toLE 8 msg.size) }

/-- The buffer with a zero-size sentinel at offset `i`. -/
def writeSentinel (s : SPSCStorage) (i : Nat) : SPSCStorage :=
  { s with buffer := s.buffer.write i (List.replicate 8 0) }

/-- The writer head moved to `next` and the message counted. -/
def publish (s : SPSCStorage) (next : Nat) : SPSCStorage :=
  { s with writeIx := next, msgCount := addW s.msgCount 1 }

/-- The reader moved past a message and the message uncounted. -/
def consume (s : SPSCStorage) (next : Nat) : SPSCStorage :=
  { s with readIx := next, msgCount := subW s.msgCount 1 }

section Fields

variable (s : SPSCStorage) (i : Nat)

@[simp] theorem writeMessage_readIx (msg : Message) :
    (s.writeMessage i msg).readIx = s.readIx := rfl

@[simp] theorem writeMessage_msgCount (msg : Message) :
    (s.writeMessage i msg).msgCount = s.msgCount := rfl

@[simp] theorem writeSentinel_readIx : (s.writeSentinel i).readIx = s.readIx := rfl

@[simp] theorem writeSentinel_msgCount : (s.writeSentinel i).msgCount = s.msgCount := rfl

@[simp] theorem publish_buffer : (s.publish i).buffer = s.buffer := rfl

@[simp] theorem publish_readIx : (s.publish i).readIx = s.readIx := rfl

@[simp] theorem publish_writeIx : (s.publish i).writeIx = i := rfl

@[simp] theorem publish_msgCount : (s.publish i).msgCount = addW s.msgCount 1 := rfl

end Fields

/-- A step within the region acts as on the whole storage; the region only decides whether it
faults. -/
theorem exec_eq {len : Nat} {o : MemOp} {s : SPSCStorage} (hb : o.InBounds len)
    (ha : o ≠ .assert false) : exec len o s = some (effect o s) :=
  if_pos ⟨hb, ha⟩

/-- The region plays no part in what a step that did not fault has done. -/
theorem eq_effect_of_exec {len : Nat} {o : MemOp} {s : SPSCStorage} {y : o.Ret × SPSCStorage}
    (h : exec len o s = some y) : y = effect o s := by
  unfold exec at h
  split at h
  · exact (Option.some.inj h).symm
  · exact absurd h (by simp)

/-- A step that does not fault stays in the region. -/
theorem inBounds_of_exec_isSome {len : Nat} {o : MemOp} {s : SPSCStorage}
    (h : (exec len o s).isSome) : o.InBounds len := by
  by_contra hc
  rw [exec, if_neg (fun hh => hc hh.1)] at h
  exact absurd h (by simp)

end SPSCStorage

namespace SPSCQueue

open SPSCStorage

variable {len : Nat} {q : SPSCQueue} {msg : Message} {s : SPSCStorage}

/-- The producer's last two accesses: the index first, the counter after it. -/
theorem run_publishAt (hlen : 256 ≤ len) (next : Nat) :
    (publishAt next).run (exec len) s = some (true, s.publish next) := by
  have hw : (MemOp.store .writeIx next).InBounds len := by
    change 128 + 8 ≤ len; omega
  have hc : (MemOp.fetchAdd .msgCount 1).InBounds len := by
    change 192 + 8 ≤ len; omega
  -- the write index first, the counter after it
  unfold publishAt QProg.store QProg.fetchAdd
  simp only [Prog.step_bind, Prog.ret_bind, Prog.pure_eq]
  rw [Prog.run_step (exec_eq hw (by simp)), Prog.run_step (exec_eq hc (by simp))]
  rfl

/-- The common front of `enqueue`: a legal message passes the assertions. -/
theorem run_enqueue_eq (hlen : 256 ≤ len) (hpos : 0 < msg.size)
    (hmax : msg.size ≤ q.maxPayloadSize) :
    (q.enqueue msg).run (exec len) s =
      (enqueueDecided msg s.writeIx (q.decision s.readIx s.writeIx msg.totalSize)).run
        (exec len) s := by
  have hr : (MemOp.load .readIx).InBounds len := by
    change 64 + 8 ≤ len; omega
  have hw : (MemOp.load .writeIx).InBounds len := by
    change 128 + 8 ≤ len; omega
  have ha : ∀ b, (MemOp.assert b).InBounds len := fun _ => trivial
  rw [enqueue_eq, Prog.run_step (exec_eq (ha _) (by simp [hpos])),
    Prog.run_step (exec_eq (ha _) (by simp [hmax])),
    Prog.run_step (exec_eq hr (by simp)), Prog.run_step (exec_eq hw (by simp))]
  rfl

/-- A refused message changes nothing. -/
theorem run_enqueue_full (hlen : 256 ≤ len) (hpos : 0 < msg.size)
    (hmax : msg.size ≤ q.maxPayloadSize)
    (hd : q.decision s.readIx s.writeIx msg.totalSize = .full) :
    (q.enqueue msg).run (exec len) s = some (false, s) := by
  rw [run_enqueue_eq hlen hpos hmax, hd]
  rfl

/-- **In place.** The message is copied in at the write index and published. -/
theorem run_enqueue_inPlace (hpos : 0 < msg.size) (hmax : msg.size ≤ q.maxPayloadSize)
    (hd : q.decision s.readIx s.writeIx msg.totalSize = .inPlace)
    (hroom : 256 + s.writeIx + 8 + msg.size ≤ len) :
    (q.enqueue msg).run (exec len) s =
      some (true, (s.writeMessage s.writeIx msg).publish
        (nextIndex s.writeIx msg.totalSize)) := by
  -- payload and header both end inside the region
  have hp : (MemOp.memcpyTo (s.writeIx + 8) msg.payload).InBounds len := by
    change 256 + (s.writeIx + 8) + msg.size ≤ len; omega
  have hh : (MemOp.memcpyTo s.writeIx (toLE 8 msg.size)).InBounds len := by
    change 256 + s.writeIx + (toLE 8 msg.size).length ≤ len
    rw [length_toLE]; omega
  rw [run_enqueue_eq (by omega) hpos hmax, hd]
  unfold enqueueDecided QProg.memcpyTo
  simp only [Prog.step_bind, Prog.ret_bind]
  rw [Prog.run_step (exec_eq hp (by simp)), Prog.run_step (exec_eq hh (by simp)),
    run_publishAt (by omega)]
  rfl

/-- **Wrapping.** The message is copied in at the front of the buffer, the sentinel marks where
it would have stood, and the index is published last. -/
theorem run_enqueue_wrap (hpos : 0 < msg.size) (hmax : msg.size ≤ q.maxPayloadSize)
    (hd : q.decision s.readIx s.writeIx msg.totalSize = .wrap)
    (hroom : 256 + 8 + msg.size ≤ len) (hsent : 256 + s.writeIx + 8 ≤ len) :
    (q.enqueue msg).run (exec len) s =
      some (true, ((s.writeMessage 0 msg).writeSentinel s.writeIx).publish
        (nextIndex 0 msg.totalSize)) := by
  have hp : (MemOp.memcpyTo 8 msg.payload).InBounds len := by
    change 256 + 8 + msg.size ≤ len; omega
  have hh : (MemOp.memcpyTo 0 (toLE 8 msg.size)).InBounds len := by
    change 256 + 0 + (toLE 8 msg.size).length ≤ len
    rw [length_toLE]; omega
  -- the sentinel goes where the message would have gone
  have hs : (MemOp.memset s.writeIx 0 8).InBounds len := by
    change 256 + s.writeIx + 8 ≤ len; omega
  rw [run_enqueue_eq (by omega) hpos hmax, hd]
  unfold enqueueDecided QProg.memcpyTo QProg.memset
  simp only [Prog.step_bind, Prog.ret_bind]
  rw [Prog.run_step (exec_eq hp (by simp)), Prog.run_step (exec_eq hh (by simp)),
    Prog.run_step (exec_eq hs (by simp)), run_publishAt (by omega)]
  rfl

/-! ### One round of `dequeue_begin` -/

/-- `dequeue_begin` is: two loads, and a header load and possibly a store if they differ. -/
theorem dequeueBeginRound_eq :
    dequeueBeginRound =
      .step (.load .readIx) fun readIx =>
      .step (.load .writeIx) fun writeIx =>
      if readIx = writeIx then .ret (some {})
      else .step (.memcpySizeFrom readIx) fun messageSize =>
        if messageSize = 0 then .step (.store .readIx 0) fun _ => .ret none
        else .ret (some { payload := some (readIx + 8), size := messageSize, index := readIx }) := by
  unfold dequeueBeginRound
  simp only [QProg.load, QProg.store, QProg.memcpySizeFrom, Prog.step_bind, Prog.ret_bind,
    Prog.pure_eq]

/-- The three ways through a round, after its two loads. -/
private theorem run_dequeueBeginRound_loads (hlen : 256 ≤ len) :
    dequeueBeginRound.run (exec len) s =
      (if s.readIx = s.writeIx then (.ret (some {}) : QProg (Option MessageView))
      else .step (.memcpySizeFrom s.readIx) fun messageSize =>
        if messageSize = 0 then .step (.store .readIx 0) fun _ => .ret none
        else .ret (some { payload := some (s.readIx + 8), size := messageSize,
                          index := s.readIx })).run (exec len) s := by
  have hr : (MemOp.load .readIx).InBounds len := by
    change 64 + 8 ≤ len; omega
  have hw : (MemOp.load .writeIx).InBounds len := by
    change 128 + 8 ≤ len; omega
  rw [dequeueBeginRound_eq, Prog.run_step (exec_eq hr (by simp)),
    Prog.run_step (exec_eq hw (by simp))]
  rfl

/-- Equal indices answer an empty view and touch nothing. -/
theorem run_dequeueBeginRound_empty (hlen : 256 ≤ len) (h : s.readIx = s.writeIx) :
    dequeueBeginRound.run (exec len) s = some (some {}, s) := by
  rw [run_dequeueBeginRound_loads hlen, if_pos h]
  rfl

/-- A size header other than the sentinel is shown to the consumer; the read index waits for the
commit. -/
theorem run_dequeueBeginRound_view (hb : 256 + s.readIx + 8 ≤ len) (h : s.readIx ≠ s.writeIx)
    (hsize : s.buffer.readWord s.readIx ≠ 0) :
    dequeueBeginRound.run (exec len) s =
      some (some { payload := some (s.readIx + 8), size := s.buffer.readWord s.readIx,
                   index := s.readIx }, s) := by
  have hm : (MemOp.memcpySizeFrom s.readIx).InBounds len := by
    change 256 + s.readIx + 8 ≤ len; omega
  rw [run_dequeueBeginRound_loads (by omega), if_neg h, Prog.run_step (exec_eq hm (by simp))]
  exact congrArg (fun p => Prog.run (exec len) p s) (if_neg hsize)

/-- The sentinel takes the consumer to the front of the buffer and answers nothing yet. -/
theorem run_dequeueBeginRound_jump (hb : 256 + s.readIx + 8 ≤ len) (h : s.readIx ≠ s.writeIx)
    (hsize : s.buffer.readWord s.readIx = 0) :
    dequeueBeginRound.run (exec len) s = some (none, { s with readIx := 0 }) := by
  have hm : (MemOp.memcpySizeFrom s.readIx).InBounds len := by
    change 256 + s.readIx + 8 ≤ len; omega
  have hr : (MemOp.store .readIx 0).InBounds len := by
    change 64 + 8 ≤ len; omega
  rw [run_dequeueBeginRound_loads (by omega), if_neg h, Prog.run_step (exec_eq hm (by simp))]
  -- the header just loaded is zero, so the round ends in the store
  refine (congrArg (fun p => Prog.run (exec len) p s) (if_pos hsize)).trans ?_
  rw [Prog.run_step (exec_eq hr (by simp))]
  rfl

/-- A jump changes the read index only, and only to `0`. -/
theorem eq_of_run_dequeueBeginRound_none {s' : SPSCStorage}
    (h : dequeueBeginRound.run (exec len) s = some (none, s')) : s' = { s with readIx := 0 } := by
  rw [dequeueBeginRound_eq] at h
  obtain ⟨y₁, h₁, h⟩ := Prog.of_run_step h
  obtain ⟨y₂, h₂, h⟩ := Prog.of_run_step h
  rw [eq_effect_of_exec h₁] at h₂ h
  rw [eq_effect_of_exec h₂] at h
  -- the two other exits of the round return a view
  split at h
  · exact absurd h (by simp)
  · obtain ⟨y₃, h₃, h⟩ := Prog.of_run_step h
    rw [eq_effect_of_exec h₃] at h
    split at h
    · obtain ⟨y₄, h₄, h⟩ := Prog.of_run_step h
      rw [eq_effect_of_exec h₄] at h
      exact (Prod.mk.inj (Option.some.inj h)).2.symm
    · exact absurd h (by simp)

/-- **Two rounds decide `dequeue_begin`.** A second jump finds the read index at `0` already and
changes nothing, so without interference the loop ends within two rounds or never. -/
theorem run_dequeueBegin_fuel (n : Nat) :
    (dequeueBegin (n + 2)).run (exec len) s = (dequeueBegin 2).run (exec len) s := by
  unfold dequeueBegin
  rw [Prog.run_iterate_succ, Prog.run_iterate_succ]
  -- a round that faults or returns a view settles both sides
  cases hb : dequeueBeginRound.run (exec len) s with
  | none => rfl
  | some x =>
    obtain ⟨v, s₁⟩ := x
    cases v with
    | some v => rfl
    | none =>
      -- the first jump sets the read index to `0`
      have hs₁ := eq_of_run_dequeueBeginRound_none hb
      have hfix : ∀ s₂, dequeueBeginRound.run (exec len) s₁ = some (none, s₂) → s₂ = s₁ := by
        intro s₂ h₂
        rw [eq_of_run_dequeueBeginRound_none h₂, hs₁]
      change (Prog.iterate dequeueBeginRound (n + 1)).run (exec len) s₁ =
        (Prog.iterate dequeueBeginRound 1).run (exec len) s₁
      rw [Prog.run_iterate_succ, Prog.run_iterate_succ]
      cases hb' : dequeueBeginRound.run (exec len) s₁ with
      | none => rfl
      | some y =>
        obtain ⟨v', s₂⟩ := y
        cases v' with
        | some v' => rfl
        | none =>
          obtain rfl := hfix s₂ hb'
          -- from here on every round is the same jump
          change (Prog.iterate dequeueBeginRound n).run (exec len) s₂ = some (none, s₂)
          induction n with
          | zero => rfl
          | succ n ih => rw [Prog.run_iterate_succ, hb']; exact ih

/-- Committing a view consumes what it shows. -/
theorem run_dequeueCommit (hlen : 256 ≤ len) (v : MessageView) :
    (dequeueCommit v).run (exec len) s =
      some ((), s.consume (nextIndex v.index v.totalSize)) := by
  have hr : (MemOp.store .readIx (nextIndex v.index v.totalSize)).InBounds len := by
    change 64 + 8 ≤ len; omega
  have hc : (MemOp.fetchSub .msgCount 1).InBounds len := by
    change 192 + 8 ≤ len; omega
  unfold dequeueCommit QProg.store QProg.fetchSub
  simp only [Prog.step_bind, Prog.ret_bind]
  rw [Prog.run_step (exec_eq hr (by simp)), Prog.run_step (exec_eq hc (by simp)),
    Prog.run_ret]
  rfl

/-- `is_empty` compares the two indices and touches nothing. -/
theorem run_isEmpty (hlen : 256 ≤ len) :
    isEmpty.run (exec len) s = some (decide (s.readIx = s.writeIx), s) := by
  have hr : (MemOp.load .readIx).InBounds len := by
    change 64 + 8 ≤ len; omega
  have hw : (MemOp.load .writeIx).InBounds len := by
    change 128 + 8 ≤ len; omega
  unfold isEmpty QProg.load
  simp only [Prog.step_bind, Prog.ret_bind, Prog.pure_eq]
  rw [Prog.run_step (exec_eq hr (by simp)), Prog.run_step (exec_eq hw (by simp))]
  rfl

/-- `can_dequeue` is the negation of `is_empty`. -/
theorem run_canDequeue (hlen : 256 ≤ len) :
    canDequeue.run (exec len) s = some (decide (s.readIx ≠ s.writeIx), s) := by
  have hr : (MemOp.load .readIx).InBounds len := by
    change 64 + 8 ≤ len; omega
  have hw : (MemOp.load .writeIx).InBounds len := by
    change 128 + 8 ≤ len; omega
  unfold canDequeue QProg.load
  simp only [Prog.step_bind, Prog.ret_bind, Prog.pure_eq]
  rw [Prog.run_step (exec_eq hr (by simp)), Prog.run_step (exec_eq hw (by simp))]
  rfl

end SPSCQueue

/-! ### Operations in a larger region -/

theorem MemOp.InBounds.mono {len len' : Nat} (hle : len ≤ len') {o : MemOp}
    (h : o.InBounds len) : o.InBounds len' := by
  cases o with
  | assert b => exact trivial
  | load c => exact le_trans h hle
  | store c v => exact le_trans h hle
  | fetchAdd c n => exact le_trans h hle
  | fetchSub c n => exact le_trans h hle
  | memcpyTo dst src => exact le_trans h hle
  | memcpySizeFrom src => exact le_trans h hle
  | memset dst c n => exact le_trans h hle

/-- A run in a region runs alike in a larger one. -/
theorem SPSCStorage.exec_mono {len len' : Nat} (hle : len ≤ len') {o : MemOp} {s : SPSCStorage}
    {y : o.Ret × SPSCStorage} (h : exec len o s = some y) : exec len' o s = some y := by
  unfold exec at h ⊢
  split at h
  · next hb =>
    rw [if_pos ⟨hb.1.mono hle, hb.2⟩]
    exact h
  · exact absurd h (by simp)

/-- A program that stays in a region stays in a larger one. -/
theorem SPSCStorage.run_mono {len len' : Nat} (hle : len ≤ len') {α : Type} {p : QProg α}
    {s s' : SPSCStorage} {a : α} (h : p.run (exec len) s = some (a, s')) :
    p.run (exec len') s = some (a, s') :=
  Prog.run_project (π := id) (fun _ _ _ _ he => exec_mono hle he) h

/-! ### What no operation does -/

namespace SPSCStorage

/-- Two storages with the same header, apart from the counters. -/
def SameHeader (s t : SPSCStorage) : Prop :=
  t.magic = s.magic ∧ t.abiVersion = s.abiVersion ∧ t.storageSize = s.storageSize

/-- **The header is never written to.** Counters and buffer are all the steps know. -/
theorem sameHeader_of_run {len : Nat} {α : Type} {p : QProg α} {s t : SPSCStorage} {a : α}
    (h : p.run (exec len) s = some (a, t)) : s.SameHeader t := by
  have hall : p.All (fun _ => True) fun _ => True :=
    .of_forall p (fun _ => trivial) fun _ => trivial
  refine (hall.of_run (I := s.SameHeader) ?_ h ⟨rfl, rfl, rfl⟩).2
  intro o _ t r t' he ht
  obtain ⟨-, rfl⟩ := Prod.mk.inj (eq_effect_of_exec he)
  -- an operation writes to a counter or to the buffer, if at all
  cases o with
  | load c => exact ht
  | store c v => cases c <;> exact ht
  | fetchAdd c n => cases c <;> exact ht
  | fetchSub c n => cases c <;> exact ht
  | memcpyTo dst src => exact ht
  | memcpySizeFrom src => exact ht
  | memset dst c n => exact ht
  | assert b => exact ht

/-- A queue depends on the header only. -/
theorem SameHeader.construct_eq {s t : SPSCStorage} (h : s.SameHeader t) :
    SPSCQueue.construct t = SPSCQueue.construct s := by
  unfold SPSCQueue.construct SPSCQueue.calcMaxMessageSize bufferSize
  rw [h.2.2]

/-- An index or counter that is set to a machine word leaves a record of machine words. -/
theorem InRange.set {s : SPSCStorage} (hs : s.InRange) {v : Nat} (hv : v < 2 ^ 64) (c : Cell) :
    (s.set c v).InRange := by
  obtain ⟨h₁, h₂, h₃, h₄, h₅, h₆⟩ := hs
  cases c with
  | readIx => exact ⟨h₁, h₂, h₃, hv, h₅, h₆⟩
  | writeIx => exact ⟨h₁, h₂, h₃, h₄, hv, h₆⟩
  | msgCount => exact ⟨h₁, h₂, h₃, h₄, h₅, hv⟩

end SPSCStorage

/-- A value that is stored is a value of the machine type. -/
def MemOp.Fits : MemOp → Prop
  | .store _ v => v < 2 ^ 64
  | _ => True

namespace SPSCStorage

/-- Steps that store machine words keep the record one of machine words: the counters wrap, they
do not grow. -/
theorem inRange_of_exec {len : Nat} {o : MemOp} (ho : o.Fits) {s t : SPSCStorage} {r : o.Ret}
    (h : exec len o s = some (r, t)) (hs : s.InRange) : t.InRange := by
  obtain ⟨-, rfl⟩ := Prod.mk.inj (eq_effect_of_exec h)
  cases o with
  | load c => exact hs
  | store c v => exact hs.set ho c
  | fetchAdd c n => exact hs.set (addW_lt _ _) c
  | fetchSub c n => exact hs.set (subW_lt _ _) c
  | memcpyTo dst src => exact ⟨hs.1, hs.2, hs.3, hs.4, hs.5, hs.6⟩
  | memcpySizeFrom src => exact hs
  | memset dst c n => exact ⟨hs.1, hs.2, hs.3, hs.4, hs.5, hs.6⟩
  | assert b => exact hs

end SPSCStorage

namespace SPSCQueue

theorem nextIndex_lt (i n : Nat) : nextIndex i n < 2 ^ 64 :=
  lt_of_le_of_lt Nat.and_le_left (subW_lt _ _)

theorem fits_publishAt (i n : Nat) : (publishAt (nextIndex i n)).All MemOp.Fits fun _ => True :=
  ⟨nextIndex_lt i n, fun _ => ⟨trivial, fun _ => trivial⟩⟩

/-- **`enqueue` stores machine words only**, whatever it read. -/
theorem fits_enqueue (q : SPSCQueue) (msg : Message) :
    (q.enqueue msg).All MemOp.Fits fun _ => True := by
  rw [enqueue_eq]
  refine ⟨trivial, fun _ => ⟨trivial, fun _ => ⟨trivial, fun r => ⟨trivial, fun w => ?_⟩⟩⟩⟩
  change (enqueueDecided msg w (q.decision r w msg.totalSize)).All MemOp.Fits _
  cases q.decision r w msg.totalSize with
  | full => exact trivial
  | inPlace => exact ⟨trivial, fun _ => ⟨trivial, fun _ => fits_publishAt _ _⟩⟩
  | wrap => exact ⟨trivial, fun _ => ⟨trivial, fun _ => ⟨trivial, fun _ => fits_publishAt _ _⟩⟩⟩

theorem fits_dequeueBeginRound : dequeueBeginRound.All MemOp.Fits fun _ => True := by
  refine ⟨trivial, fun r => ⟨trivial, fun w => ?_⟩⟩
  change Prog.All MemOp.Fits _ (ite (r = w) _ _)
  split
  · exact trivial
  · refine ⟨trivial, fun n => ?_⟩
    change Prog.All MemOp.Fits _ (ite (n = 0) _ _)
    split
    · exact ⟨show 0 < 2 ^ 64 by decide, fun _ => trivial⟩
    · exact trivial

/-- **`dequeue_begin` stores machine words only**, by induction on its rounds. -/
theorem fits_dequeueBegin (fuel : Nat) : (dequeueBegin fuel).All MemOp.Fits fun _ => True := by
  induction fuel with
  | zero => exact trivial
  | succ fuel ih =>
    refine (fits_dequeueBeginRound.mono fun r _ => ?_).bind
    cases r with
    | none => exact ih
    | some v => exact trivial

/-- **`dequeue_commit` stores machine words only.** -/
theorem fits_dequeueCommit (v : MessageView) :
    (dequeueCommit v).All MemOp.Fits fun _ => True :=
  ⟨nextIndex_lt _ _, fun _ => ⟨trivial, fun _ => trivial⟩⟩

theorem fits_isEmpty : isEmpty.All MemOp.Fits fun _ => True :=
  ⟨trivial, fun _ => ⟨trivial, fun _ => trivial⟩⟩

theorem fits_canDequeue : canDequeue.All MemOp.Fits fun _ => True :=
  ⟨trivial, fun _ => ⟨trivial, fun _ => trivial⟩⟩

end SPSCQueue

end PosixIpc
