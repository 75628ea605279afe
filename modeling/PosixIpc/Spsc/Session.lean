import PosixIpc.Framework.Run
import PosixIpc.Framework.Fifo
import PosixIpc.Spsc.Layout

/-!
# Sessions of whole operations

A `Session` is a storage together with the view the consumer holds: the one its last
`dequeue_begin` returned and its `dequeue_commit` has not taken back yet. Its operations are whole
calls of `enqueue`, `dequeue_begin` and `dequeue_commit`.

`Session.Inv` ties a session to the layout of its buffer. For each operation there is one lemma
that says everything it does to the invariant: `Inv.enqueue`, `Inv.dequeueBegin`,
`Inv.dequeueCommit`. `Session.Overwrites` is the one situation in which an accepted message costs
unread ones: the message does not fit before the end of the buffer, the write index has already
wrapped behind the read index, and still there is room for it between the start of the buffer and
the reader.

`SPSCQueue.walk` follows the headers from the read index and collects the payloads, jumping to the
start of the buffer at a sentinel. Under the invariant it reaches the write index and yields
`front ++ back` (`Layout.walk_eq`).
-/

namespace PosixIpc

open Framework SPSCQueue SPSCStorage

/-! ### Accepted queues -/

/-- `q` is a queue on a buffer of `B` bytes of an acceptable size. -/
structure Sized (q : SPSCQueue) (B : Nat) : Prop where
  bufferSize_eq : q.bufferSize = B
  maxMessageSize_eq : q.maxMessageSize = B / 2
  mod_eight : B % 8 = 0
  sixteen_le : 16 ≤ B
  lt : B < 2 ^ 63

/-- **What `SPSCQueue::create` accepts.** On a storage whose size is not below the header. -/
theorem SPSCQueue.create_eq_ok_iff {s : SPSCStorage} {q : SPSCQueue} {n : Nat}
    (hn : s.storageSize = n) (hlow : 256 ≤ n) (hhigh : n < 2 ^ 63) :
    SPSCQueue.create s = .ok q ↔
      q = SPSCQueue.construct s ∧ (n - 256) % 8 = 0 ∧ 16 ≤ n - 256 := by
  have hB : s.bufferSize = n - 256 := by
    change subW s.storageSize 256 = n - 256
    rw [hn, subW_eq hlow (by omega)]
  have hmin : nextIndex 0 (8 + 8) = 16 := by decide
  unfold SPSCQueue.create
  simp only [hB, hmin]
  -- alignment is checked first, the minimal size after it
  by_cases h8 : (n - 256) % 8 = 0
  · by_cases h16 : n - 256 < 16
    · rw [if_neg (by omega), if_pos h16]
      exact ⟨fun h => absurd h (by simp), fun h => absurd h.2.2 (by omega)⟩
    · rw [if_neg (by omega), if_neg h16]
      refine ⟨fun h => ⟨(Except.ok.inj h).symm, h8, by omega⟩, fun h => ?_⟩
      rw [h.1]
  · rw [if_pos h8]
    exact ⟨fun h => absurd h (by simp), fun h => absurd h.2.1 h8⟩

/-- A storage whose buffer size is a multiple of 8, at least 16 and no wrapped word, is walked
within its buffer. -/
theorem sized_construct {s : SPSCStorage} {n : Nat} (hn : s.storageSize = n) (hlow : 256 ≤ n)
    (hhigh : n - 256 < 2 ^ 63) (h8 : (n - 256) % 8 = 0) (h16 : 16 ≤ n - 256) :
    Sized (SPSCQueue.construct s) (n - 256) := by
  have hB : s.bufferSize = n - 256 := by
    change subW s.storageSize 256 = n - 256
    rw [hn, subW_eq hlow (by omega)]
  refine ⟨hB, ?_, h8, h16, hhigh⟩
  change s.bufferSize / 2 = (n - 256) / 2
  rw [hB]

/-- A queue created on a created storage: a fresh storage and an acceptable buffer size. -/
theorem sized_of_create {available : Nat → Bool} {raw : Mem} {n : Nat} {s : SPSCStorage}
    {q : SPSCQueue} (hs : SPSCStorage.create available raw n = .ok s)
    (hq : SPSCQueue.create s = .ok q) :
    s = SPSCStorage.construct n raw ∧ n = 256 + (n - 256) ∧ Sized q (n - 256) := by
  obtain ⟨hs, hlow, hhigh⟩ := SPSCStorage.create_eq_ok hs
  have hn : s.storageSize = n := by rw [hs]; rfl
  obtain ⟨rfl, h8, h16⟩ := (SPSCQueue.create_eq_ok_iff hn (by omega) hhigh).mp hq
  exact ⟨hs, by omega, sized_construct hn (by omega) (by omega) h8 h16⟩

/-- The largest payload fits twice, with its headers. -/
theorem Sized.maxPayloadSize_eq {q : SPSCQueue} {B : Nat} (h : Sized q B) :
    q.maxPayloadSize = B / 2 - 8 := by
  have hle := h.sixteen_le
  have hlt := h.lt
  unfold SPSCQueue.maxPayloadSize
  rw [h.maxMessageSize_eq, subW_eq (by omega) (by omega)]

/-- A payload `enqueue` may be called with. -/
def LegalPayload (q : SPSCQueue) (p : Payload) : Prop :=
  1 ≤ p.length ∧ p.length ≤ q.maxPayloadSize

instance (q : SPSCQueue) (p : Payload) : Decidable (LegalPayload q p) :=
  inferInstanceAs (Decidable (_ ∧ _))

section LegalPayload

variable {q : SPSCQueue} {B : Nat} {p : Payload}

/-- A legal payload is no longer than half of the buffer, less a header. -/
theorem LegalPayload.length_le (hq : Sized q B) (hp : LegalPayload q p) :
    p.length ≤ B / 2 - 8 := by
  have hle := hp.2
  rw [hq.maxPayloadSize_eq] at hle
  exact hle

/-- The write index after a message that wraps is the length of its slot. -/
theorem nextIndex_zero_totalSize (hq : Sized q B) (hp : LegalPayload q p) :
    nextIndex 0 (Message.mk p).totalSize = slot p.length := by
  have hle := hp.length_le hq
  have hlt := hq.lt
  have h₀ := nextIndex_slot (i := 0) (n := p.length) rfl (by omega)
  rw [Nat.zero_add] at h₀
  exact h₀

/-- A legal message fits into a fresh buffer. -/
theorem slot_lt_of_legal (hq : Sized q B) (hp : LegalPayload q p) : slot p.length < B := by
  have hle := hp.length_le hq
  have hslot := slot_lt p.length
  have h8 := hq.mod_eight
  have h16 := hq.sixteen_le
  have hmod := slot_mod p.length
  -- a legal message is at most half a buffer, and `B` is a multiple of 8 like its slot
  omega

end LegalPayload

/-- The index computations of `enqueue` on a legal payload, in plain arithmetic. -/
theorem Sized.decision_eq {q : SPSCQueue} {B : Nat} (hq : Sized q B) {p : Payload}
    (hp : LegalPayload q p) {r w : Nat} (hw : w < B) (hw8 : w % 8 = 0) :
    q.decision r w (Message.mk p).totalSize =
      if w + slot p.length < B then
        if w < r ∧ r ≤ w + slot p.length then .full else .inPlace
      else if w < r ∧ r ≤ w + 8 then .full
      else if r ≤ slot p.length then .full
      else .wrap := by
  have hle := hp.length_le hq
  have hlt := hq.lt
  unfold SPSCQueue.decision
  rw [Message.totalSize_mk, nextIndex_slot hw8 (by omega), nextIndex_slot (i := 0) rfl (by omega),
    Nat.zero_add, addW_eq (by omega), hq.bufferSize_eq]

/-! ### Operations -/

/-- A storage and the view the consumer holds. -/
structure Session where
  storage : SPSCStorage
  view : Option MessageView

/-- A whole operation. The commit is of the view held. -/
inductive Op where
  | enqueue (payload : Payload)
  | dequeueBegin
  | dequeueCommit
  deriving DecidableEq

/-- What an operation returns. -/
inductive Reply where
  | enqueued (ok : Bool)
  | viewed (v : MessageView)
  | committed
  deriving DecidableEq

namespace Session

/-- Perform a whole operation on a storage in a region of `len` bytes. There is no answer on a
fault, and none when `dequeue_begin` does not end (`run_dequeueBegin_fuel`). -/
def apply (q : SPSCQueue) (len : Nat) (x : Session) : Op → Option (Reply × Session)
  | .enqueue p =>
    match (q.enqueue ⟨p⟩).run (exec len) x.storage with
    | some (ok, s) => some (.enqueued ok, { x with storage := s })
    | none => none
  | .dequeueBegin =>
    match (SPSCQueue.dequeueBegin 2).run (exec len) x.storage with
    | some (some v, s) => some (.viewed v, { storage := s, view := if v.empty then none else v })
    | _ => none
  | .dequeueCommit =>
    match x.view with
    | none => none
    | some v =>
      match (SPSCQueue.dequeueCommit v).run (exec len) x.storage with
      | some (_, s) => some (.committed, { storage := s, view := none })
      | none => none

/-- A completed `enqueue` is an operation of the session. -/
theorem apply_enqueue {q : SPSCQueue} {len : Nat} {x : Session} {p : Payload} {ok : Bool}
    {s : SPSCStorage} (h : (q.enqueue ⟨p⟩).run (exec len) x.storage = some (ok, s)) :
    x.apply q len (.enqueue p) = some (.enqueued ok, { x with storage := s }) := by
  simp only [apply, h]

/-- A completed `dequeue_begin` is an operation of the session; an empty view is not kept. -/
theorem apply_dequeueBegin {q : SPSCQueue} {len : Nat} {x : Session} {v : MessageView}
    {s : SPSCStorage}
    (h : (SPSCQueue.dequeueBegin 2).run (exec len) x.storage = some (some v, s)) :
    x.apply q len .dequeueBegin =
      some (.viewed v, { storage := s, view := if v.empty then none else v }) := by
  simp only [apply, h]

/-- A completed `dequeue_commit` of the view that is held is an operation of the session. -/
theorem apply_dequeueCommit {q : SPSCQueue} {len : Nat} {x : Session} {v : MessageView}
    {s : SPSCStorage} {u : Unit} (hv : x.view = some v)
    (h : (SPSCQueue.dequeueCommit v).run (exec len) x.storage = some (u, s)) :
    x.apply q len .dequeueCommit = some (.committed, { storage := s, view := none }) := by
  simp only [apply, hv, h]

/-- What an operation does to the storage: it runs a program that stores values of the machine
type. -/
theorem exists_run_of_apply {q : SPSCQueue} {len : Nat} {x y : Session} {o : Op} {r : Reply}
    (h : x.apply q len o = some (r, y)) : ∃ (α : Type) (p : QProg α) (a : α),
      p.All MemOp.Fits (fun _ => True) ∧ p.run (exec len) x.storage = some (a, y.storage) := by
  cases o with
  | enqueue p =>
    simp only [apply] at h
    split at h
    · next ok s hrun =>
      -- a refused enqueue runs the same program as an accepted one
      obtain ⟨-, rfl⟩ := Prod.mk.inj (Option.some.inj h)
      exact ⟨_, _, _, fits_enqueue q ⟨p⟩, hrun⟩
    · exact absurd h (by simp)
  | dequeueBegin =>
    simp only [apply] at h
    split at h
    · next v s hrun =>
      obtain ⟨-, rfl⟩ := Prod.mk.inj (Option.some.inj h)
      exact ⟨_, _, _, fits_dequeueBegin 2, hrun⟩
    · exact absurd h (by simp)
  | dequeueCommit =>
    simp only [apply] at h
    split at h
    · exact absurd h (by simp)
    · next v hv =>
      split at h
      · next u s hrun =>
        obtain ⟨-, rfl⟩ := Prod.mk.inj (Option.some.inj h)
        exact ⟨_, _, _, fits_dequeueCommit v, hrun⟩
      · exact absurd h (by simp)

/-- No operation writes to the header. -/
theorem sameHeader_of_apply {q : SPSCQueue} {len : Nat} {x y : Session} {o : Op} {r : Reply}
    (h : x.apply q len o = some (r, y)) : x.storage.SameHeader y.storage := by
  obtain ⟨α, p, a, -, hrun⟩ := exists_run_of_apply h
  exact sameHeader_of_run hrun

/-- No operation stores more than machine words. -/
theorem inRange_of_apply {q : SPSCQueue} {len : Nat} {x y : Session} {o : Op} {r : Reply}
    (h : x.apply q len o = some (r, y)) (hs : x.storage.InRange) : y.storage.InRange := by
  obtain ⟨α, p, a, hfits, hrun⟩ := exists_run_of_apply h
  exact (hfits.of_run (fun _ ho _ _ _ he => inRange_of_exec ho he) hrun hs).2

/-- The operations a producer and a consumer may perform: legal payloads, and one commit for each
non-empty view. -/
def Legal (q : SPSCQueue) (x : Session) : Op → Prop
  | .enqueue p => LegalPayload q p
  | .dequeueBegin => True
  | .dequeueCommit => x.view.isSome

instance (q : SPSCQueue) (x : Session) : (o : Op) → Decidable (Legal q x o)
  | .enqueue p => inferInstanceAs (Decidable (LegalPayload q p))
  | .dequeueBegin => isTrue trivial
  | .dequeueCommit => inferInstanceAs (Decidable (x.view.isSome = true))

/-- The wrap branch of `enqueue` is taken while the write index is behind the read index. -/
def Overwrites (q : SPSCQueue) (s : SPSCStorage) (p : Payload) : Prop :=
  s.writeIx < s.readIx ∧ q.bufferSize ≤ nextIndex s.writeIx (Message.mk p).totalSize ∧
    addW s.writeIx 8 < s.readIx ∧ nextIndex 0 (Message.mk p).totalSize < s.readIx

instance (q : SPSCQueue) (s : SPSCStorage) (p : Payload) : Decidable (Overwrites q s p) :=
  inferInstanceAs (Decidable (_ ∧ _))

/-- The operation is not an enqueue that overwrites. -/
def KeepsUnread (q : SPSCQueue) (x : Session) : Op → Prop
  | .enqueue p => ¬ Overwrites q x.storage p
  | _ => True

instance (q : SPSCQueue) (x : Session) : (o : Op) → Decidable (KeepsUnread q x o)
  | .enqueue p => inferInstanceAs (Decidable (¬ Overwrites q x.storage p))
  | .dequeueBegin => isTrue trivial
  | .dequeueCommit => isTrue trivial

/-- A session on a fresh storage. -/
def start (s : SPSCStorage) : Session := ⟨s, none⟩

/-! ### The invariant -/

/-- The buffer of a session holds `front ++ back`, and the view held is of the oldest message. -/
structure Inv (B : Nat) (x : Session) (front back : List Payload) : Prop where
  layout : Layout B x.storage.buffer x.storage.readIx x.storage.writeIx front back
  view : ∀ v, x.view = some v → ∃ p rest, front = p :: rest ∧
    v = { payload := some (x.storage.readIx + 8), size := p.length, index := x.storage.readIx }

/-- A fresh storage is empty, whatever bytes its buffer holds. -/
theorem Inv.start {B n : Nat} (hB : 0 < B) (raw : Mem) :
    Inv B (Session.start (SPSCStorage.construct n raw)) [] [] :=
  ⟨Layout.fresh hB raw, fun _ h => absurd h (by simp [Session.start])⟩

/-- What the consumer sees through the view it holds is the oldest message. -/
theorem Inv.view_bytes {B : Nat} {x : Session} {front back : List Payload} {v : MessageView}
    (h : Inv B x front back) (hv : x.view = some v) :
    ∃ p rest, front = p :: rest ∧ v.bytes x.storage.buffer = p ∧ v.empty = false ∧
      v.index = x.storage.readIx ∧ v.size = p.length ∧
      x.storage.readIx + slot p.length < B := by
  obtain ⟨p, rest, hf, rfl⟩ := h.view v hv
  have hne : x.storage.readIx ≠ x.storage.writeIx := by
    rw [Ne, h.layout.eq_iff, hf]
    simp
  -- a view is only held of a message, so the reader is not at the sentinel
  rcases h.layout.at_reader hne with ⟨p', rest', hf', hs, hlt⟩ | ⟨hnil, -, -⟩
  · obtain ⟨rfl, rfl⟩ := List.cons.inj (hf.symm.trans hf')
    have hpos := hs.pos
    refine ⟨p, rest, hf, hs.bytes, ?_, rfl, rfl, hlt⟩
    exact decide_eq_false (by change ¬ p.length = 0; omega)
  · rw [hf] at hnil
    exact absurd hnil (by simp)

section Spec

variable {q : SPSCQueue} {B : Nat} {x : Session} {front back : List Payload} {p : Payload}

/-- On a legal payload, to overwrite is to wrap with the write index behind the read index. -/
theorem overwrites_iff (hq : Sized q B) (h : Inv B x front back) (hp : LegalPayload q p) :
    Overwrites q x.storage p ↔
      x.storage.writeIx < x.storage.readIx ∧ B ≤ x.storage.writeIx + slot p.length ∧
        x.storage.writeIx + 8 < x.storage.readIx ∧ slot p.length < x.storage.readIx := by
  have hle := hp.length_le hq
  have hlt := hq.lt
  have hw := h.layout.write_lt
  unfold Overwrites
  rw [Message.totalSize_mk, nextIndex_slot h.layout.write_mod (by omega),
    nextIndex_slot (i := 0) rfl (by omega), Nat.zero_add, addW_eq (by omega), hq.bufferSize_eq]

/-- The session with a message behind the others. -/
def written (x : Session) (p : Payload) : Session where
  storage := (x.storage.writeMessage x.storage.writeIx ⟨p⟩).publish
    (x.storage.writeIx + slot p.length)
  view := x.view

/-- The session with a message at the start of the buffer, and a sentinel where the writer was. -/
def wrapped (x : Session) (p : Payload) : Session where
  storage := ((x.storage.writeMessage 0 ⟨p⟩).writeSentinel x.storage.writeIx).publish
    (slot p.length)
  view := x.view

section Fields

variable (x : Session) (p : Payload)

@[simp] theorem written_view : (x.written p).view = x.view := by
  simp [written]

@[simp] theorem written_readIx : (x.written p).storage.readIx = x.storage.readIx := by
  simp [written]

@[simp] theorem written_msgCount :
    (x.written p).storage.msgCount = addW x.storage.msgCount 1 := by
  simp [written]

@[simp] theorem wrapped_view : (x.wrapped p).view = x.view := by
  simp [wrapped]

@[simp] theorem wrapped_readIx : (x.wrapped p).storage.readIx = x.storage.readIx := by
  simp [wrapped]

@[simp] theorem wrapped_msgCount :
    (x.wrapped p).storage.msgCount = addW x.storage.msgCount 1 := by
  simp [wrapped]

end Fields

/-- A layout at the front of which `front` is kept, with the view as it was. -/
theorem Inv.of_layout {y : Session} {front' back' : List Payload} (h : Inv B x front back)
    (hL : Layout B y.storage.buffer x.storage.readIx y.storage.writeIx front' back')
    (hpre : front <+: front') (hview : y.view = x.view)
    (hread : y.storage.readIx = x.storage.readIx) : Inv B y front' back' := by
  refine ⟨by rw [hread]; exact hL, fun v hv => ?_⟩
  -- the oldest message is the one it was
  rw [hview] at hv
  obtain ⟨t, rfl⟩ := hpre
  obtain ⟨p, rest, rfl, rfl⟩ := h.view v hv
  exact ⟨p, rest ++ t, rfl, by rw [hread]⟩

/-- A message that goes behind the others: its slot lies outside the occupied bytes. -/
theorem Inv.written_of_room (hq : Sized q B) (h : Inv B x front back) (hp : LegalPayload q p)
    (hend : x.storage.writeIx + slot p.length < B)
    (hroom : ¬ (x.storage.writeIx < x.storage.readIx ∧
      x.storage.readIx ≤ x.storage.writeIx + slot p.length)) :
    ∃ front' back', Inv B (x.written p) front' back' ∧
      front' ++ back' = front ++ back ++ [p] := by
  have hL := h.layout
  have hB8 := hq.mod_eight
  have hle := hp.length_le hq
  have hlt := hq.lt
  have hsize : (Message.mk p).size < 2 ^ 64 := by
    change p.length < 2 ^ 64
    omega
  -- the message is written to the free part: the bytes of the unread messages stay
  have hag : ∀ a b, b ≤ x.storage.writeIx ∨ x.storage.writeIx + slot p.length ≤ a →
      Mem.Agree x.storage.buffer (x.storage.writeMessage x.storage.writeIx ⟨p⟩).buffer a b :=
    fun a b hab => agree_writeMessage x.storage x.storage.writeIx ⟨p⟩ hab
  -- so their layout does, and the new message is appended to it
  have hL' := hL.of_agree hB8 (fun _ => hag _ _ (.inl (le_refl _)))
    (fun _ => ⟨hag _ _ (.inr (by omega)), hag _ _ (.inl (le_refl _))⟩)
  have hst : Stored (x.storage.writeMessage x.storage.writeIx ⟨p⟩).buffer x.storage.writeIx p :=
    stored_writeMessage hp.1 hsize _ _
  obtain ⟨front', back', hlay, hpre, hcat⟩ := hL'.append hst hend (by omega)
  refine ⟨front', back', h.of_layout ?_ hpre (written_view x p) (written_readIx x p), hcat⟩
  simpa only [written, publish_buffer, publish_writeIx] using hlay

/-- A message that wraps in the flat shape: the sentinel ends `front`, the message starts `back`. -/
theorem Inv.wrapped_of_le (hq : Sized q B) (h : Inv B x front back) (hp : LegalPayload q p)
    (hrw : x.storage.readIx ≤ x.storage.writeIx) (hread : slot p.length < x.storage.readIx) :
    Inv B (x.wrapped p) front [p] ∧ back = [] := by
  have hle := hp.length_le hq
  have hlt := hq.lt
  have hlay := h.layout.wrapWrites hq.mod_eight hp.1 (by omega) hrw hread
  refine ⟨h.of_layout ?_ (List.prefix_refl _) (wrapped_view x p) (wrapped_readIx x p),
    h.layout.back_eq_nil_iff.mpr hrw⟩
  simpa only [wrapped, publish_buffer, publish_writeIx] using hlay

/-- A message that wraps while the reader is between the write index and the end: unread messages
are lost. -/
theorem Inv.wrapped_of_lt (hq : Sized q B) (h : Inv B x front back) (hp : LegalPayload q p)
    (hwr : x.storage.writeIx + 8 < x.storage.readIx) (hread : slot p.length < x.storage.readIx) :
    ∃ p', Inv B (x.wrapped p) front [p'] ∧ back ≠ [] := by
  have hle := hp.length_le hq
  have hlt := hq.lt
  obtain ⟨p', -, hne, hlay⟩ := h.layout.overwriteWrites hq.mod_eight hp.1 (by omega) hwr hread
  refine ⟨p', h.of_layout ?_ (List.prefix_refl _) (wrapped_view x p) (wrapped_readIx x p), hne⟩
  simpa only [wrapped, publish_buffer, publish_writeIx] using hlay

/-- **What `enqueue` does.** It is refused and changes nothing, or it is accepted, is counted and
leaves a layout: with the message appended, or, if it overwrites, with `back` replaced by it. -/
theorem Inv.enqueue (hq : Sized q B) (h : Inv B x front back) (hp : LegalPayload q p) :
    (x.apply q (256 + B) (.enqueue p) = some (.enqueued false, x) ∧
        ¬ Overwrites q x.storage p) ∨
      ∃ x' front' back', x.apply q (256 + B) (.enqueue p) = some (.enqueued true, x') ∧
        x'.view = x.view ∧ x'.storage.readIx = x.storage.readIx ∧
        x'.storage.msgCount = addW x.storage.msgCount 1 ∧ Inv B x' front' back' ∧
        (¬ Overwrites q x.storage p → front' ++ back' = front ++ back ++ [p]) ∧
        (Overwrites q x.storage p → ∃ p', front' = front ∧ back' = [p'] ∧ back ≠ []) := by
  have hw := h.layout.write_lt
  have hr := h.layout.read_lt
  have hw8 := h.layout.write_mod
  have hB8 := hq.mod_eight
  have hlt := hq.lt
  have hle := hp.length_le hq
  have hslot := lt_slot p.length
  have hdec := hq.decision_eq hp (r := x.storage.readIx) hw hw8
  rw [overwrites_iff hq h hp]
  split at hdec
  · next hend =>
    split at hdec
    · -- the message would cross the reader
      exact .inl ⟨apply_enqueue (run_enqueue_full (by omega) hp.1 hp.2 hdec), by omega⟩
    · next hroom =>
      right
      -- accepted in place
      have happly : x.apply q (256 + B) (.enqueue p) = some (.enqueued true, x.written p) := by
        rw [apply_enqueue (run_enqueue_inPlace hp.1 hp.2 hdec
          (by change 256 + x.storage.writeIx + 8 + p.length ≤ 256 + B; omega)),
          Message.totalSize_mk, nextIndex_slot hw8 (by omega)]
        rfl
      obtain ⟨front', back', hinv, hcat⟩ := h.written_of_room hq hp hend hroom
      exact ⟨_, front', back', happly, written_view x p, written_readIx x p, written_msgCount x p,
        hinv, fun _ => hcat, fun hover => absurd hover (by omega)⟩
  · next hend =>
    split at hdec
    · -- the sentinel would reach the reader
      exact .inl ⟨apply_enqueue (run_enqueue_full (by omega) hp.1 hp.2 hdec), by omega⟩
    · next hsent =>
      split at hdec
      · -- the wrapped message would reach the reader
        exact .inl ⟨apply_enqueue (run_enqueue_full (by omega) hp.1 hp.2 hdec), by omega⟩
      · next hread =>
        right
        -- accepted at the start of the buffer, with a sentinel at the write index
        have happly : x.apply q (256 + B) (.enqueue p) = some (.enqueued true, x.wrapped p) := by
          rw [apply_enqueue (run_enqueue_wrap hp.1 hp.2 hdec
            (by change 256 + 8 + p.length ≤ 256 + B; omega) (by omega)),
            nextIndex_zero_totalSize hq hp]
          rfl
        by_cases hwr : x.storage.writeIx < x.storage.readIx
        · obtain ⟨p', hinv, hne⟩ := h.wrapped_of_lt hq hp (by omega) (by omega)
          exact ⟨_, front, [p'], happly, wrapped_view x p, wrapped_readIx x p,
            wrapped_msgCount x p, hinv, fun hno => absurd ⟨hwr, by omega, by omega, by omega⟩ hno,
            fun _ => ⟨p', rfl, rfl, hne⟩⟩
        · obtain ⟨hinv, rfl⟩ := h.wrapped_of_le hq hp (by omega) (by omega)
          exact ⟨_, front, [p], happly, wrapped_view x p, wrapped_readIx x p,
            wrapped_msgCount x p, hinv, fun _ => by rw [List.append_nil],
            fun hover => absurd hover.1 hwr⟩

/-- A reader that stands at a message is shown it at once, and nothing changes. -/
theorem Inv.dequeueBegin_message {rest : List Payload} (hq : Sized q B)
    (h : Inv B x (p :: rest) back) :
    x.apply q (256 + B) .dequeueBegin =
      some (.viewed ⟨some (x.storage.readIx + 8), p.length, x.storage.readIx⟩,
        ⟨x.storage, some ⟨some (x.storage.readIx + 8), p.length, x.storage.readIx⟩⟩) := by
  have hr := h.layout.read_lt
  have hr8 := h.layout.read_mod
  have hB8 := hq.mod_eight
  have hne : x.storage.readIx ≠ x.storage.writeIx := by
    rw [Ne, h.layout.eq_iff]
    simp
  have hst := h.layout.stored
  have hpos := hst.pos
  -- the header of the message is its length, which is no sentinel
  have hround := @run_dequeueBeginRound_view (256 + B) x.storage (by omega) hne
    (by rw [hst.header]; omega)
  rw [hst.header] at hround
  rw [apply_dequeueBegin (by rw [SPSCQueue.dequeueBegin, Prog.run_iterate_succ, hround]; rfl)]
  simp only [MessageView.empty, decide_eq_true_eq]
  rw [if_neg (by omega)]

/-- **What `dequeue_begin` does.** On an empty queue it shows nothing; otherwise it shows the oldest
message, having moved the read index past the sentinel if it stood there. It needs at most two
rounds. -/
theorem Inv.dequeueBegin (hq : Sized q B) (h : Inv B x front back) :
    (front ++ back = [] ∧
      x.apply q (256 + B) .dequeueBegin = some (.viewed {}, { x with view := none })) ∨
    ∃ p rest back' r', front ++ back = p :: rest ++ back' ∧
      x.apply q (256 + B) .dequeueBegin =
        some (.viewed ⟨some (r' + 8), p.length, r'⟩,
          ⟨{ x.storage with readIx := r' }, some ⟨some (r' + 8), p.length, r'⟩⟩) ∧
      Stored x.storage.buffer r' p ∧ r' + slot p.length < B ∧
      Inv B ⟨{ x.storage with readIx := r' }, some ⟨some (r' + 8), p.length, r'⟩⟩
        (p :: rest) back' := by
  have hL := h.layout
  have hr := hL.read_lt
  have hr8 := hL.read_mod
  have hB8 := hq.mod_eight
  have hB := hq.sixteen_le
  by_cases heq : x.storage.readIx = x.storage.writeIx
  · -- nothing to read
    left
    refine ⟨hL.eq_iff.mp heq, ?_⟩
    have hround := @run_dequeueBeginRound_empty (256 + B) x.storage (by omega) heq
    exact apply_dequeueBegin (by rw [SPSCQueue.dequeueBegin, Prog.run_iterate_succ, hround]; rfl)
  · right
    rcases hL.at_reader heq with ⟨p, rest, hf, hst, hend⟩ | ⟨hf, hwr, hz⟩
    · -- a message at the read index: the first round shows it
      subst hf
      refine ⟨p, rest, back, x.storage.readIx, rfl, h.dequeueBegin_message hq, hst, hend, hL, ?_⟩
      intro v hv
      obtain rfl := Option.some.inj hv
      exact ⟨p, rest, rfl, rfl⟩
    · -- the sentinel: jump to the start, where the second round shows a message
      subst hf
      have hround := @run_dequeueBeginRound_jump (256 + B) x.storage (by omega) heq hz
      have hskip := hL.skip hwr
      have hne : back ≠ [] := fun hb => absurd (hL.back_eq_nil_iff.mp hb) (by omega)
      have hne0 : (0 : Nat) ≠ x.storage.writeIx := by
        rw [Ne, hskip.eq_iff, List.append_nil]
        exact hne
      rcases hskip.at_reader hne0 with ⟨p, rest, hb, hst, hend⟩ | ⟨hb, -, -⟩
      · subst hb
        have hpos := hst.pos
        have hround' := @run_dequeueBeginRound_view (256 + B) { x.storage with readIx := 0 }
          (by simp only; omega) hne0
          (by simp only; rw [hst.header]; omega)
        simp only [hst.header] at hround'
        refine ⟨p, rest, [], 0, by simp, ?_, hst, by omega, hskip, ?_⟩
        · rw [apply_dequeueBegin (by
            rw [SPSCQueue.dequeueBegin, Prog.run_iterate_succ, hround]
            change (Prog.iterate dequeueBeginRound 1).run _ _ = _
            rw [Prog.run_iterate_succ, hround']; rfl)]
          simp only [MessageView.empty, decide_eq_true_eq]
          rw [if_neg (by omega)]
        · intro v hv
          obtain rfl := Option.some.inj hv
          exact ⟨p, rest, rfl, rfl⟩
      · exact absurd hb hne

/-- **What `dequeue_commit` does.** It removes the message the view shows. -/
theorem Inv.dequeueCommit (hq : Sized q B) (h : Inv B x front back) {v : MessageView}
    (hv : x.view = some v) :
    ∃ p rest, front = p :: rest ∧ v.bytes x.storage.buffer = p ∧
      v.index = x.storage.readIx ∧ v.size = p.length ∧ x.storage.readIx + slot p.length < B ∧
      x.apply q (256 + B) .dequeueCommit =
        some (.committed, ⟨x.storage.consume (x.storage.readIx + slot p.length), none⟩) ∧
      Inv B ⟨x.storage.consume (x.storage.readIx + slot p.length), none⟩ rest back := by
  have hlt := hq.lt
  obtain ⟨p, rest, hf, hbytes, -, hidx, hsize, hend⟩ := h.view_bytes hv
  have hslot := lt_slot p.length
  -- the commit recomputes the slot from the view, which agrees with the header
  have hnext : nextIndex v.index v.totalSize = x.storage.readIx + slot p.length := by
    unfold MessageView.totalSize
    rw [hidx, hsize, nextIndex_slot h.layout.read_mod (by omega)]
  refine ⟨p, rest, hf, hbytes, hidx, hsize, hend, ?_, ?_, fun _ hn => absurd hn (by simp)⟩
  · rw [apply_dequeueCommit hv (run_dequeueCommit (by omega) v), hnext]
  · have hL := h.layout
    rw [hf] at hL
    exact hL.pop

end Spec

end Session

/-! ### The contents of a queue -/

/-- Follow the headers from `ix` until the write index `w`: the payloads met, and how often the
walk went back to the start of the buffer. -/
def SPSCQueue.walk (m : Mem) (w : Nat) : Nat → Nat → Option (List Payload × Nat)
  | 0, _ => none
  | n + 1, ix =>
    if ix = w then some ([], 0)
    else if m.readWord ix = 0 then
      (walk m w n 0).map fun x => (x.1, x.2 + 1)
    else
      (walk m w n (nextIndex ix (addW 8 (m.readWord ix)))).map fun x =>
        (m.read (ix + 8) (m.readWord ix) :: x.1, x.2)

/-- The messages a reader will find, from the read index to the write index. -/
def SPSCQueue.contents (q : SPSCQueue) (s : SPSCStorage) : Option (List Payload) :=
  (walk s.buffer s.writeIx q.bufferSize s.readIx).map Prod.fst

/-- The walk along a chain that does not touch the write index before its end. -/
theorem Chain.walk_eq {m : Mem} {w a b n : Nat} {ps : List Payload} {l : List Payload × Nat}
    (h : Chain m a ps b) (ha : a % 8 = 0) (hb : b < 2 ^ 63)
    (hw : ∀ i, a ≤ i → i < b → i ≠ w) (hrest : walk m w n b = some l) :
    walk m w (ps.length + n) a = some (ps ++ l.1, l.2) := by
  induction ps generalizing a with
  | nil =>
    obtain rfl : a = b := h
    simpa using hrest
  | cons p ps ih =>
    have hst := h.1
    have hpos := hst.pos
    have hslot := lt_slot p.length
    have hmod := slot_mod p.length
    have hle := h.2.le
    -- the header of the first message leads to the second
    have hnext : nextIndex a (addW 8 p.length) = a + slot p.length :=
      nextIndex_slot ha (by omega)
    rw [show (p :: ps).length + n = ps.length + n + 1 by rw [List.length_cons]; omega, walk,
      if_neg (hw a (le_refl a) (by omega)), if_neg (by rw [hst.header]; omega), hst.header,
      hst.bytes, hnext, ih h.2 (by omega) (fun i hi hib => hw i (by omega) hib)]
    rfl

/-- **The walk under the invariant.** It reaches the write index, meets the sentinel at most once,
and collects `front ++ back`. -/
theorem Layout.walk_eq {B r w : Nat} {m : Mem} {front back : List Payload}
    (h : Layout B m r w front back) (hB : 16 ≤ B) (hlt : B < 2 ^ 63) :
    ∃ k, k ≤ 1 ∧ walk m w B r = some (front ++ back, k) := by
  have hlen := h.length_lt
  rw [List.length_append] at hlen
  cases h with
  | flat hrw hw hr8 hc =>
    rw [List.length_nil] at hlen
    -- one unit of fuel a message and one to stop
    have hend : walk m w (B - front.length) w = some ([], 0) := by
      rw [show B - front.length = B - front.length - 1 + 1 by omega, walk, if_pos rfl]
    have hwalk := hc.walk_eq hr8 (by omega) (fun i _ hib => by omega) hend
    rw [show front.length + (B - front.length) = B by omega] at hwalk
    exact ⟨0, by omega, hwalk⟩
  | @wrapped _ e hwr he hr8 hfront hsent hne hback =>
    have hle := hfront.le
    -- the part behind the sentinel, with the fuel that is left there
    have hend : walk m w (B - front.length - 1 - back.length) w = some ([], 0) := by
      rw [show B - front.length - 1 - back.length = B - front.length - 1 - back.length - 1 + 1 by
        omega, walk, if_pos rfl]
    have hbackWalk := hback.walk_eq rfl (by omega) (fun i _ hib => by omega) hend
    rw [show back.length + (B - front.length - 1 - back.length) = B - front.length - 1 by omega]
      at hbackWalk
    -- the one jump of the walk
    have hjump : walk m w (B - front.length) e = some (back, 1) := by
      rw [show B - front.length = B - front.length - 1 + 1 by omega, walk, if_neg (by omega),
        if_pos hsent, hbackWalk]
      simp
    have hwalk := hfront.walk_eq hr8 (by omega) (fun i hi _ => by omega) hjump
    rw [show front.length + (B - front.length) = B by omega] at hwalk
    exact ⟨1, le_refl 1, hwalk⟩

/-- What a reader will find is what the invariant says is in the queue. -/
theorem Session.Inv.contents_eq {q : SPSCQueue} {B : Nat} {x : Session}
    {front back : List Payload} (hq : Sized q B) (h : Session.Inv B x front back) :
    q.contents x.storage = some (front ++ back) := by
  obtain ⟨k, -, hwalk⟩ := h.layout.walk_eq hq.sixteen_le hq.lt
  unfold SPSCQueue.contents
  rw [hq.bufferSize_eq, hwalk]
  rfl

end PosixIpc
