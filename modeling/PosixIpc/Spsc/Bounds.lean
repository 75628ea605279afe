import PosixIpc.Spsc.Refinement

/-!
# Bounds, alignment and exact arithmetic over all runs

What holds in every state a session on a fresh storage can reach, for any mix of message sizes and
whether or not messages are lost on the way (`soundness`): the indices are aligned and inside the
buffer, the headers lead from the read index to the write index with at most one sentinel on the
way, every operation is answered, every buffer access is inside the buffer, and the index and size
computations do not wrap.

The message counter is the exception. It counts an overwriting enqueue without uncounting what was
overwritten, so it only stays exact as long as nothing is overwritten, or as long as fewer than
`2 ^ 64` messages were offered. `counter_wraps` is a run on which it wraps.
-/

namespace PosixIpc

open Framework SPSCQueue SPSCStorage

/-! ### Sound states and operations -/

/-- A step on the buffer stays inside `[0, B)`. -/
def MemOp.WithinBuffer (B : Nat) : MemOp → Prop
  | .memcpyTo dst src => dst + src.length ≤ B
  | .memcpySizeFrom src => src + 8 ≤ B
  | .memset dst _ n => dst + n ≤ B
  | _ => True

/-- None of the additions and subtractions inside `next_index` wraps. -/
structure NextIndexExact (currentIndex size : Nat) : Prop where
  ix : addW currentIndex size = currentIndex + size
  aligned : addW (addW currentIndex size) 8 = currentIndex + size + 8
  rounded : subW (addW (addW currentIndex size) 8) 1 = currentIndex + size + 7

namespace Session

/-- Alignment and bounds of the indices, and the chain of headers between them. -/
structure WellFormed (B : Nat) (s : SPSCStorage) : Prop where
  read_mod : s.readIx % 8 = 0
  write_mod : s.writeIx % 8 = 0
  read_lt : s.readIx < B
  write_lt : s.writeIx < B
  walk : ∃ ps k, k ≤ 1 ∧ walk s.buffer s.writeIx B s.readIx = some (ps, k)

/-- The computations of `enqueue` on indices and sizes do not wrap. -/
structure EnqueueExact (q : SPSCQueue) (s : SPSCStorage) (p : Payload) : Prop where
  totalSize : (Message.mk p).totalSize = 8 + p.length
  next : NextIndexExact s.writeIx (Message.mk p).totalSize
  nextWrapped : NextIndexExact 0 (Message.mk p).totalSize
  sentinelEnd : addW s.writeIx 8 = s.writeIx + 8
  maxPayload : 8 ≤ q.maxMessageSize ∧ q.maxPayloadSize = q.maxMessageSize - 8

/-- An operation is answered, its buffer accesses stay inside the buffer, and its index and size
computations are exact. The message counter is looked at apart (`CounterExact`). -/
def OpSound (q : SPSCQueue) (B : Nat) (x : Session) : Op → Prop
  | .enqueue p =>
    (∃ ok y, x.apply q (256 + B) (.enqueue p) = some (.enqueued ok, y)) ∧
      (∀ o ∈ (q.enqueue ⟨p⟩).trace (exec (256 + B)) x.storage, o.WithinBuffer B) ∧
      EnqueueExact q x.storage p
  | .dequeueBegin =>
    ∃ v y, x.apply q (256 + B) .dequeueBegin = some (.viewed v, y) ∧
      (v.empty = false ↔ canDequeue.run (exec (256 + B)) x.storage = some (true, x.storage)) ∧
      (v.empty = false → v.index + 8 + v.size ≤ B)
  | .dequeueCommit =>
    ∃ v y, x.view = some v ∧ x.apply q (256 + B) .dequeueCommit = some (.committed, y) ∧
      v.totalSize = 8 + v.size ∧ NextIndexExact v.index v.totalSize

/-- The update of the message counter does not wrap. -/
def CounterExact (q : SPSCQueue) (len : Nat) (x : Session) : Op → Prop
  | .enqueue p => ∀ y, x.apply q len (.enqueue p) = some (.enqueued true, y) →
      addW x.storage.msgCount 1 = x.storage.msgCount + 1
  | .dequeueBegin => True
  | .dequeueCommit => 1 ≤ x.storage.msgCount ∧
      subW x.storage.msgCount 1 = x.storage.msgCount - 1

/-! ### One operation -/

variable {q : SPSCQueue} {B : Nat} {x y : Session} {front back : List Payload} {o : Op}

/-- A state of the invariant is well formed. -/
theorem Inv.wellFormed (hq : Sized q B) (h : Inv B x front back) : WellFormed B x.storage := by
  obtain ⟨k, hk, hwalk⟩ := h.layout.walk_eq hq.sixteen_le hq.lt
  exact ⟨h.layout.read_mod, h.layout.write_mod, h.layout.read_lt, h.layout.write_lt,
    ⟨front ++ back, k, hk, hwalk⟩⟩

/-- `next_index` rounds up as intended where it does not wrap. -/
theorem nextIndexExact {i n : Nat} (h : i + n + 8 < 2 ^ 64) : NextIndexExact i n := by
  have hix : addW i n = i + n := addW_eq (by omega)
  have hal : addW (i + n) 8 = i + n + 8 := addW_eq h
  refine ⟨hix, by rw [hix, hal], ?_⟩
  rw [hix, hal, subW_eq (by omega) h]
  omega

/-- The arithmetic of `enqueue` is exact in a state of the invariant. -/
theorem Inv.enqueueExact (hq : Sized q B) (h : Inv B x front back) {p : Payload}
    (hp : LegalPayload q p) : EnqueueExact q x.storage p := by
  have hmax := hq.maxPayloadSize_eq
  have hle := hp.2
  rw [hmax] at hle
  have hB := hq.sixteen_le
  have hlt := hq.lt
  have hw := h.layout.write_lt
  -- a payload of at most half a buffer, below `2 ^ 62`
  have htot : (Message.mk p).totalSize = 8 + p.length := by
    rw [Message.totalSize_mk, addW_eq (by omega)]
  refine ⟨htot, ?_, ?_, addW_eq (by omega), ?_⟩
  · rw [htot]
    exact nextIndexExact (by omega)
  · rw [htot]
    exact nextIndexExact (by omega)
  · rw [hmax, hq.maxMessageSize_eq]
    exact ⟨by omega, rfl⟩

/-- A completed run of a program on a region of `256 + B` bytes stays inside the buffer. -/
theorem withinBuffer_of_run {α : Type} {c : QProg α} {s : SPSCStorage} {z : α × SPSCStorage}
    (h : c.run (exec (256 + B)) s = some z) :
    ∀ o ∈ c.trace (exec (256 + B)) s, o.WithinBuffer B := by
  intro o ho
  obtain ⟨t, ht⟩ := Prog.exec_isSome_of_mem_trace h o ho
  have hb := inBounds_of_exec_isSome ht
  -- the buffer starts 256 bytes into the region
  cases o <;> try exact trivial
  case memcpyTo dst src =>
    change 256 + dst + src.length ≤ 256 + B at hb
    change dst + src.length ≤ B
    omega
  case memcpySizeFrom src =>
    change 256 + src + 8 ≤ 256 + B at hb
    change src + 8 ≤ B
    omega
  case memset dst c n =>
    change 256 + dst + n ≤ 256 + B at hb
    change dst + n ≤ B
    omega

/-- An `enqueue` that is answered has run to its end. -/
theorem run_of_apply_enqueue {len : Nat} {p : Payload} {r : Reply}
    (h : x.apply q len (.enqueue p) = some (r, y)) :
    ∃ z, (q.enqueue ⟨p⟩).run (exec len) x.storage = some z := by
  cases hr : (q.enqueue ⟨p⟩).run (exec len) x.storage with
  | some z => exact ⟨z, rfl⟩
  | none =>
    simp only [apply, hr] at h
    exact absurd h (by simp)

/-- **Every legal operation** of a state of the invariant is sound. -/
theorem Inv.opSound (hq : Sized q B) (h : Inv B x front back) (hl : Legal q x o) :
    OpSound q B x o := by
  have hlt := hq.lt
  cases o with
  | enqueue p =>
    have hanswer : ∃ ok y, x.apply q (256 + B) (.enqueue p) = some (.enqueued ok, y) := by
      rcases h.enqueue hq hl with ⟨hfull, -⟩ | ⟨y, -, -, happly, -⟩
      · exact ⟨false, x, hfull⟩
      · exact ⟨true, y, happly⟩
    refine ⟨hanswer, ?_, h.enqueueExact hq hl⟩
    obtain ⟨ok, y, happly⟩ := hanswer
    obtain ⟨z, hrun⟩ := run_of_apply_enqueue happly
    exact withinBuffer_of_run hrun
  | dequeueBegin =>
    -- `can_dequeue` compares the indices, as the first round does
    have hcan := @run_canDequeue (256 + B) x.storage (by omega)
    rcases h.dequeueBegin hq with
      ⟨hnil, happly⟩ | ⟨p, rest, back', r', hcat, happly, hst, hend, -⟩
    · have heq := h.layout.eq_iff.mpr hnil
      refine ⟨_, _, happly, ?_, fun he => absurd he (by decide)⟩
      rw [hcan, heq]
      simp [MessageView.empty]
    · have hpos := hst.pos
      have hslot := lt_slot p.length
      have hne : x.storage.readIx ≠ x.storage.writeIx := by
        rw [Ne, h.layout.eq_iff, hcat]
        simp
      refine ⟨_, _, happly, ?_, fun _ => ?_⟩
      · rw [hcan, decide_eq_true hne]
        refine ⟨fun _ => rfl, fun _ => ?_⟩
        exact decide_eq_false (by change ¬ p.length = 0; omega)
      · change r' + 8 + p.length ≤ B
        omega
  | dequeueCommit =>
    obtain ⟨v, hv⟩ := Option.isSome_iff_exists.mp hl
    obtain ⟨p, rest, -, -, hidx, hsize, hend, happly, -⟩ := h.dequeueCommit hq hv
    have hslot := lt_slot p.length
    have htot : v.totalSize = 8 + v.size := addW_eq (by omega)
    refine ⟨v, _, hv, happly, htot, ?_⟩
    rw [htot]
    exact nextIndexExact (by omega)

/-- `is_empty` tells whether there is a message to read. -/
theorem Inv.run_isEmpty (h : Inv B x front back) :
    isEmpty.run (exec (256 + B)) x.storage = some (decide (front ++ back = []), x.storage) := by
  rw [SPSCQueue.run_isEmpty (Nat.le_add_right 256 B)]
  exact congrArg (fun b => some (b, x.storage)) (decide_eq_decide.mpr h.layout.eq_iff)

/-! ### What one operation does to the counter and to the number of unread messages -/

/-- One operation, seen by the counter: nothing happens, a message is counted, or one is
uncounted. Unless it overwrites, a counted message is one more unread message. -/
theorem Inv.step (hq : Sized q B) (h : Inv B x front back) (hl : Legal q x o) {r : Reply}
    (happly : x.apply q (256 + B) o = some (r, y)) :
    ∃ front' back', Inv B y front' back' ∧
      ((y.storage.msgCount = x.storage.msgCount ∧ front' ++ back' = front ++ back) ∨
       ((∃ p, o = .enqueue p) ∧ y.storage.msgCount = addW x.storage.msgCount 1 ∧
          (front' ++ back').length ≤ (front ++ back).length + 1 ∧
          (KeepsUnread q x o → (front' ++ back').length = (front ++ back).length + 1)) ∨
       (y.storage.msgCount = subW x.storage.msgCount 1 ∧
          (front ++ back).length = (front' ++ back').length + 1)) := by
  cases o with
  | enqueue p =>
    rcases h.enqueue hq hl with
      ⟨hfull, -⟩ | ⟨y', front', back', happly', -, -, hcnt, hinv, hkeep, hover⟩
    · obtain ⟨-, rfl⟩ := Prod.mk.inj (Option.some.inj (happly.symm.trans hfull))
      exact ⟨front, back, h, .inl ⟨rfl, rfl⟩⟩
    · obtain ⟨-, rfl⟩ := Prod.mk.inj (Option.some.inj (happly.symm.trans happly'))
      have hlong : ¬ Overwrites q x.storage p →
          (front' ++ back').length = (front ++ back).length + 1 := by
        intro hno
        rw [hkeep hno]
        simp only [List.length_append, List.length_singleton]
      refine ⟨front', back', hinv, .inr (.inl ⟨⟨p, rfl⟩, hcnt, ?_, hlong⟩)⟩
      by_cases hov : Overwrites q x.storage p
      · -- overwriting: counted all the same, while `back` shrinks to one message
        obtain ⟨p', rfl, rfl, -⟩ := hover hov
        rw [List.length_append, List.length_append, List.length_singleton]
        omega
      · exact le_of_eq (hlong hov)
  | dequeueBegin =>
    rcases h.dequeueBegin hq with
      ⟨-, happly'⟩ | ⟨p, rest, back', r', hcat, happly', -, -, hinv⟩
    · obtain ⟨-, rfl⟩ := Prod.mk.inj (Option.some.inj (happly.symm.trans happly'))
      exact ⟨front, back, ⟨h.layout, fun _ hn => absurd hn (by simp)⟩, .inl ⟨rfl, rfl⟩⟩
    · obtain ⟨-, rfl⟩ := Prod.mk.inj (Option.some.inj (happly.symm.trans happly'))
      exact ⟨p :: rest, back', hinv, .inl ⟨rfl, hcat.symm⟩⟩
  | dequeueCommit =>
    obtain ⟨v, hv⟩ := Option.isSome_iff_exists.mp hl
    obtain ⟨p, rest, rfl, -, -, -, -, happly', hinv⟩ := h.dequeueCommit hq hv
    obtain ⟨-, rfl⟩ := Prod.mk.inj (Option.some.inj (happly.symm.trans happly'))
    exact ⟨rest, back, hinv, .inr (.inr ⟨rfl, rfl⟩)⟩

/-- The number of enqueues in a run. -/
def enqueueCalls : List Op → Nat
  | [] => 0
  | .enqueue _ :: os => enqueueCalls os + 1
  | _ :: os => enqueueCalls os

/-- The calls of `enqueue` in a run, counted. -/
theorem enqueueCalls_append (os : List Op) (o : Op) :
    enqueueCalls (os ++ [o]) = enqueueCalls os + enqueueCalls [o] := by
  induction os with
  | nil => exact (Nat.zero_add _).symm
  | cons o' os ih =>
    cases o' <;> simp only [List.cons_append, enqueueCalls, ih]
    omega

/-! ### Runs -/

variable {ops : List Op}

/-- Every session reached holds some messages in a layout. -/
theorem Inv.reaches (hq : Sized q B) (hr : Reaches (apply q (256 + B)) (Legal q) x ops y)
    (h : Inv B x front back) : ∃ front' back', Inv B y front' back' := by
  refine hr.invariant (I := fun z => ∃ front' back', Inv B z front' back') ?_ ⟨front, back, h⟩
  rintro z o r z' ⟨front', back', hz⟩ hl happly
  obtain ⟨front'', back'', hz', -⟩ := hz.step hq hl happly
  exact ⟨front'', back'', hz'⟩

/-- As long as nothing is overwritten, the counter is the number of unread messages. -/
theorem Inv.counted_of_keepsUnread (hq : Sized q B)
    (hr : Reaches (apply q (256 + B)) (Legal q) x ops y) (h : Inv B x front back)
    (hcount : x.storage.msgCount = (front ++ back).length)
    (hkeep : Along (apply q (256 + B)) (KeepsUnread q) x ops) :
    ∃ front' back', Inv B y front' back' ∧ y.storage.msgCount = (front' ++ back').length := by
  induction hr generalizing front back with
  | refl x => exact ⟨front, back, h, hcount⟩
  | cons hl happly _ ih =>
    obtain ⟨hko, hkrest⟩ := hkeep
    obtain ⟨front', back', h', hcases⟩ := h.step hq hl happly
    have hlen := h.layout.length_lt
    have hlt := hq.lt
    refine ih h' ?_ (hkrest _ _ happly)
    -- the buffer is too small for the counter to wrap on unread messages alone
    rcases hcases with ⟨hc, hcat⟩ | ⟨-, hc, -, hlong⟩ | ⟨hc, hshort⟩
    · rw [hc, hcount, hcat]
    · rw [hc, hcount, addW_eq (by omega), hlong hko]
    · rw [hc, hcount, subW_eq (by omega) (by omega)]
      omega

/-- Even when messages are overwritten, the counter is at least the number of unread messages, as
long as the enqueues are too few for it to wrap. -/
theorem Inv.counted_of_enqueueCalls (hq : Sized q B)
    (hr : Reaches (apply q (256 + B)) (Legal q) x ops y) (h : Inv B x front back)
    (hcount : (front ++ back).length ≤ x.storage.msgCount)
    (hcalls : x.storage.msgCount + enqueueCalls ops < 2 ^ 64) :
    ∃ front' back', Inv B y front' back' ∧ (front' ++ back').length ≤ y.storage.msgCount ∧
      y.storage.msgCount ≤ x.storage.msgCount + enqueueCalls ops := by
  induction hr generalizing front back with
  | refl x => exact ⟨front, back, h, hcount, Nat.le_add_right _ _⟩
  | @cons x z y o os r hl happly _ ih =>
    obtain ⟨front', back', h', hcases⟩ := h.step hq hl happly
    -- an operation is worth at most one enqueue
    have hone : enqueueCalls os ≤ enqueueCalls (o :: os) := by
      cases o with
      | enqueue p => exact Nat.le_succ _
      | dequeueBegin => exact le_refl _
      | dequeueCommit => exact le_refl _
    rcases hcases with ⟨hc, hcat⟩ | ⟨⟨p, rfl⟩, hc, hlong, -⟩ | ⟨hc, hshort⟩
    · obtain ⟨f, b, hinv, hlow, hhigh⟩ := ih h' (by rw [hcat, hc]; exact hcount) (by omega)
      exact ⟨f, b, hinv, hlow, by omega⟩
    · have hsum : enqueueCalls (.enqueue p :: os) = enqueueCalls os + 1 := rfl
      rw [addW_eq (by omega)] at hc
      obtain ⟨f, b, hinv, hlow, hhigh⟩ := ih h' (by omega) (by omega)
      exact ⟨f, b, hinv, hlow, by omega⟩
    · -- a commit finds an unread message, so the counter is not zero
      rw [subW_eq (by omega) (by omega)] at hc
      obtain ⟨f, b, hinv, hlow, hhigh⟩ := ih h' (by omega) (by omega)
      exact ⟨f, b, hinv, hlow, by omega⟩

/-- A counter that is not below the number of unread messages is updated exactly. -/
theorem Inv.counterExact {len : Nat} (h : Inv B x front back) (hl : Legal q x o)
    (hlow : (front ++ back).length ≤ x.storage.msgCount) (hlt : x.storage.msgCount < 2 ^ 64)
    (hhigh : ∀ p, o = .enqueue p → x.storage.msgCount + 1 < 2 ^ 64) : CounterExact q len x o := by
  cases o with
  | enqueue p => exact fun _ _ => addW_eq (hhigh p rfl)
  | dequeueBegin => exact trivial
  | dequeueCommit =>
    -- a view is only held on an unread message
    obtain ⟨v, hv⟩ := Option.isSome_iff_exists.mp hl
    obtain ⟨p, rest, hf, -⟩ := h.view v hv
    rw [hf, List.cons_append, List.length_cons] at hlow
    exact ⟨by omega, subW_eq (by omega) hlt⟩

end Session

open Session

/-- **Soundness of every reachable state.** In every session reached from a fresh storage of an
accepted size by legal operations, the indices and the chain of headers are well formed, and every
further legal operation is answered within bounds and with exact arithmetic; the counter included
if nothing was overwritten so far, or if fewer than `2 ^ 64` enqueues were made. -/
theorem soundness {available : Nat → Bool} {raw : Mem} {n : Nat} {s : SPSCStorage}
    {q : SPSCQueue} (hs : SPSCStorage.create available raw n = .ok s)
    (hq : SPSCQueue.create s = .ok q) {ops : List Op} {x : Session}
    (hr : Reaches (apply q n) (Legal q) (start s) ops x) :
    WellFormed (n - 256) x.storage ∧
      ∀ o, Legal q x o → OpSound q (n - 256) x o ∧
        (Along (apply q n) (KeepsUnread q) (start s) ops ∨ enqueueCalls (ops ++ [o]) < 2 ^ 64 →
          CounterExact q n x o) := by
  obtain ⟨hfresh, hn, hsized⟩ := sized_of_create hs hq
  have hB := hsized.sixteen_le
  have hlt := hsized.lt
  have h₀ : Inv (n - 256) (start s) [] [] := by
    rw [hfresh]
    exact Inv.start (by omega) raw
  have hzero : (start s).storage.msgCount = 0 := by rw [hfresh]; rfl
  rw [hn] at hr
  obtain ⟨front, back, hinv⟩ := h₀.reaches hsized hr
  refine ⟨hinv.wellFormed hsized, fun o hl => ⟨hinv.opSound hsized hl, ?_⟩⟩
  -- without overwriting, the counter is the number of messages; with fewer than `2 ^ 64` calls it
  -- is at least that and has not wrapped
  rintro (hkeep | hcalls)
  · rw [hn] at hkeep
    obtain ⟨front', back', hinv', hcount⟩ := h₀.counted_of_keepsUnread hsized hr hzero hkeep
    have hlen := hinv'.layout.length_lt
    exact hinv'.counterExact hl (le_of_eq hcount.symm) (by omega) (fun _ _ => by omega)
  · rw [enqueueCalls_append] at hcalls
    obtain ⟨front', back', hinv', hlow, hhigh⟩ :=
      h₀.counted_of_enqueueCalls hsized hr (by rw [hzero]; exact le_refl 0)
        (by rw [hzero]; omega)
    rw [hzero, Nat.zero_add] at hhigh
    refine hinv'.counterExact hl hlow (by omega) ?_
    rintro p rfl
    have hone : enqueueCalls [.enqueue p] = 1 := rfl
    omega

/-- Also after the overwriting enqueue of `losingRun` the session is well formed and counts on. -/
theorem soundness_losing :
    ∃ x, Reaches (apply queue64 320) (Legal queue64) (start storage64) losingRun x ∧
      WellFormed 64 x.storage ∧ CounterExact queue64 320 x (.enqueue [1]) := by
  obtain ⟨x, hx⟩ : ∃ x, follow (apply queue64 320) (start storage64) losingRun = some x :=
    Option.isSome_iff_exists.mp (by decide +kernel)
  have hr : Reaches (apply queue64 320) (Legal queue64) (start storage64) losingRun x :=
    .of_follow hx (by decide +kernel)
  obtain ⟨hwf, hop⟩ := soundness create_storage64 create_queue64 hr
  have hl : LegalPayload queue64 [1] := by decide +kernel
  exact ⟨x, hr, hwf, (hop (.enqueue [1]) hl).2 (.inr (by decide))⟩

/-! ### The counter wraps -/

/-- The indices `losingRun` leaves behind: the writer at 32, behind the reader at 48. -/
def Lapped (c : Nat) (x : Session) : Prop :=
  x.storage.readIx = 48 ∧ x.storage.writeIx = 32 ∧ x.storage.msgCount = c

/-- The message that is accepted over and over, each time in place of its predecessor. -/
def lappingOp : Op := .enqueue (List.replicate 24 4)

/-- From there, one more message is accepted and counted, and the indices stay. -/
theorem Lapped.step {c : Nat} {x : Session} (h : Lapped c x) :
    ∃ y, x.apply queue64 320 lappingOp = some (.enqueued true, y) ∧ Lapped (addW c 1) y := by
  obtain ⟨hr, hw, hc⟩ := h
  have hdec : queue64.decision x.storage.readIx x.storage.writeIx
      (Message.mk (List.replicate 24 4)).totalSize = .wrap := by
    rw [hr, hw]
    decide +kernel
  have hrun := @run_enqueue_wrap 320 queue64 ⟨List.replicate 24 4⟩ x.storage (by decide)
    (by decide +kernel) hdec (by decide) (by rw [hw]; decide)
  refine ⟨_, apply_enqueue hrun, hr, ?_, ?_⟩
  · change nextIndex 0 (Message.mk (List.replicate 24 4)).totalSize = 32
    decide +kernel
  · change addW x.storage.msgCount 1 = addW c 1
    rw [hc]

/-- Any count can be reached from a lapped session. -/
theorem Lapped.reaches {c : Nat} {x : Session} (h : Lapped c x) (k : Nat)
    (hk : c + k < 2 ^ 64) :
    ∃ y, Reaches (apply queue64 320) (Legal queue64) x (List.replicate k lappingOp) y ∧
      Lapped (c + k) y := by
  -- by induction on the number of messages, each of which leaves the session lapped
  induction k generalizing c x with
  | zero => exact ⟨x, .refl x, h⟩
  | succ k ih =>
    obtain ⟨x', happly, h'⟩ := h.step
    rw [addW_eq (by omega)] at h'
    obtain ⟨y, hr, hy⟩ := ih h' (by omega)
    refine ⟨y, .cons (by change LegalPayload _ _; decide +kernel) happly hr, ?_⟩
    rw [show c + (k + 1) = c + 1 + k by omega]
    exact hy

/-- **The counter wraps.** A run of `2 ^ 64 + 2` enqueues brings the counter, with a single
message in the buffer, from `2 ^ 64 - 1` to zero. -/
theorem counter_wraps :
    ¬ ∀ (available : Nat → Bool) (raw : Mem) (n : Nat) (s : SPSCStorage) (q : SPSCQueue),
      SPSCStorage.create available raw n = .ok s → SPSCQueue.create s = .ok q →
      ∀ ops x, Reaches (apply q n) (Legal q) (start s) ops x →
        ∀ o, Legal q x o → CounterExact q n x o := by
  intro h
  obtain ⟨x, hx⟩ : ∃ x, follow (apply queue64 320) (start storage64) losingRun = some x :=
    Option.isSome_iff_exists.mp (by decide +kernel)
  have hr : Reaches (apply queue64 320) (Legal queue64) (start storage64) losingRun x :=
    .of_follow hx (by decide +kernel)
  -- `losingRun` ends lapped, with two messages counted and one left
  have hlap : Lapped 2 x := by
    have hix : (follow (apply queue64 320) (start storage64) losingRun).map (fun z =>
        (z.storage.readIx, z.storage.writeIx, z.storage.msgCount)) = some (48, 32, 2) := by
      decide +kernel
    rw [hx, Option.map_some, Option.some.injEq, Prod.mk.injEq, Prod.mk.injEq] at hix
    exact hix
  -- then every further message is counted and none is added
  obtain ⟨y, hry, hy⟩ := hlap.reaches (2 ^ 64 - 3) (by omega)
  obtain ⟨z, happly, -⟩ := hy.step
  have hexact := h _ _ 320 storage64 queue64 create_storage64 create_queue64 _ y (hr.trans hry)
    lappingOp (by change LegalPayload _ _; decide +kernel) z happly
  rw [hy.2.2] at hexact
  exact absurd hexact (by decide)

end PosixIpc
