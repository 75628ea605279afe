import PosixIpc.Spsc.Refinement
import PosixIpc.Spsc.Interference

/-!
# Producer and consumer, step by step

The system of one producer and one consumer on a storage, at the grain of single loads, stores and
copies. A party is between two calls or inside one, with the steps it still has to do; at any point
it may stop and be replaced by a new party that attaches to the storage as it is. The other party
goes on meanwhile, and every order of the steps is a run.

`protocol_safety`: for messages of one footprint, whatever the interleaving and however often the
parties are replaced, what was committed is a prefix of what was published, a view that was
returned shows the next message until its commit, and no party inside a call is ever stuck.
-/

namespace PosixIpc

open Framework SPSCQueue SPSCStorage Shared

/-! ### The system -/

/-- Where the producer stands. -/
inductive ProducerState where
  | idle
  | enqueuing (p : Payload) (rest : QProg Bool)

/-- Where the consumer stands. -/
inductive ConsumerState where
  | idle
  | looking (rest : QProg (Option MessageView))
  | holding (v : MessageView)
  | committing (v : MessageView) (rest : QProg Unit)

/-- The shared state, and both parties. The producer's handle is part of the producer; the consumer
needs no more of its handle than the storage. -/
structure Parties where
  shared : Shared
  queue : SPSCQueue
  producer : ProducerState
  consumer : ConsumerState

/-- How a new party attaches to an existing storage: `Publisher::from_config` reinterprets a
segment of the configured size, `SPSCStorage::map` checks the header first. -/
inductive Attach where
  | reinterpret
  | map (ptr : Nat)

/-- The storage a party attached to, in a mapping of `len` bytes. -/
def Attach.storage (len : Nat) (s : SPSCStorage) : Attach → Option SPSCStorage
  | .reinterpret => some s
  | .map ptr => (SPSCStorage.map ptr len s).toOption

/-- What can happen next. -/
inductive Action where
  | enqueue (p : Payload)
  | producerStep
  | replaceProducer (how : Attach)
  | dequeueBegin
  | dequeueCommit
  | consumerStep
  | replaceConsumer (how : Attach)

namespace Parties

/-- The next step of the producer inside a call. -/
def producerStep (len : Nat) (x : Parties) : Option Parties :=
  match x.producer with
  | .idle => none
  -- the call returns
  | .enqueuing _ (.ret _) => some { x with producer := .idle }
  | .enqueuing p (.step o k) =>
    (produce len p o x.shared).map fun y =>
      { x with shared := y.2, producer := .enqueuing p (k y.1) }

/-- The next step of the consumer inside a call. -/
def consumerStep (len : Nat) (x : Parties) : Option Parties :=
  match x.consumer with
  | .idle => none
  | .holding _ => none
  -- the sentinel was passed: the loop starts over
  | .looking (.ret none) => some { x with consumer := .looking dequeueBeginRound }
  | .looking (.ret (some v)) =>
    some { x with consumer := if v.empty then .idle else .holding v }
  | .looking (.step o k) =>
    (look len o x.shared).map fun y => { x with shared := y.2, consumer := .looking (k y.1) }
  | .committing _ (.ret _) => some { x with consumer := .idle }
  | .committing v (.step o k) =>
    (commit len v o x.shared).map fun y =>
      { x with shared := y.2, consumer := .committing v (k y.1) }

/-- An action, if it is possible. -/
def act (len : Nat) (x : Parties) : Action → Option Parties
  | .enqueue p =>
    match x.producer with
    | .idle => some { x with producer := .enqueuing p (x.queue.enqueue ⟨p⟩) }
    | _ => none
  | .producerStep => x.producerStep len
  -- the old party is gone, with whatever it had left to do
  | .replaceProducer how =>
    (how.storage len x.shared.storage).map fun s =>
      { x with shared := { x.shared with storage := s }, queue := SPSCQueue.construct s,
               producer := .idle }
  | .dequeueBegin =>
    match x.consumer with
    | .idle => some { x with consumer := .looking dequeueBeginRound }
    | .holding _ => some { x with consumer := .looking dequeueBeginRound }
    | _ => none
  | .dequeueCommit =>
    match x.consumer with
    | .holding v => some { x with consumer := .committing v (SPSCQueue.dequeueCommit v) }
    | _ => none
  | .consumerStep => x.consumerStep len
  | .replaceConsumer how =>
    (how.storage len x.shared.storage).map fun s =>
      { x with shared := { x.shared with storage := s }, consumer := .idle }

/-- The system as a machine without replies. -/
def step (len : Nat) (x : Parties) (a : Action) : Option (Unit × Parties) :=
  (x.act len a).map fun y => ((), y)

/-- Two parties on a fresh storage. -/
def start (s : SPSCStorage) (q : SPSCQueue) : Parties where
  shared := { storage := s, published := [], committed := [] }
  queue := q
  producer := .idle
  consumer := .idle

/-- All messages are legal and have footprint `T`. -/
def Uniform (T : Nat) (x : Parties) : Action → Prop
  | .enqueue p => LegalPayload x.queue p ∧ nextIndex 0 (Message.mk p).totalSize = T
  | _ => True

instance (T : Nat) (x : Parties) : (a : Action) → Decidable (Uniform T x a)
  | .enqueue p => inferInstanceAs (Decidable (LegalPayload x.queue p ∧ _ = T))
  | .producerStep | .replaceProducer _ | .dequeueBegin | .dequeueCommit | .consumerStep
  | .replaceConsumer _ => isTrue trivial

/-- The view the consumer may read through: from its return until the `read_ix` store. -/
def view (x : Parties) : Option MessageView :=
  match x.consumer with
  | .holding v => some v
  | .committing v (.step (.store .readIx _) _) => some v
  | _ => none

/-- The producer is inside a call. -/
def ProducerBusy (x : Parties) : Prop :=
  ∃ p rest, x.producer = .enqueuing p rest

/-- The consumer is inside a call. -/
def ConsumerBusy (x : Parties) : Prop :=
  (∃ rest, x.consumer = .looking rest) ∨ ∃ v rest, x.consumer = .committing v rest

end Parties

/-! ### What keeps the system safe -/

/-- What is left of the producer's call can be carried on. -/
def ProducerState.Ready (B T : Nat) (x : Shared) : ProducerState → Prop
  | .idle => True
  | .enqueuing p rest => Produces B T p rest x

/-- What is left of the consumer's call can be carried on, and its view shows a message. -/
def ConsumerState.Ready (B T : Nat) (x : Shared) : ConsumerState → Prop
  | .idle => True
  | .looking rest => Looks B T rest x
  | .holding v => AtHeader B T v x
  | .committing v rest =>
    (rest = SPSCQueue.dequeueCommit v ∧ AtHeader B T v x) ∨
      rest = .step (.fetchSub .msgCount 1) .ret ∨ rest = .ret ()

/-- What the producer is in the middle of is not disturbed by the consumer. -/
theorem ProducerState.Ready.stable {B T : Nat} {a b : Shared} {s : ProducerState}
    (h : s.Ready B T a) (hab : ByConsumer B T a b) : s.Ready B T b := by
  cases s with
  | idle => exact trivial
  | enqueuing p rest =>
    exact Sustains.stable (R := ByConsumer B T) (fun _ _ _ => ByConsumer.trans) h hab

/-- What the consumer is in the middle of is not disturbed by the producer. -/
theorem ConsumerState.Ready.stable {B T : Nat} {a b : Shared} {s : ConsumerState}
    (h : s.Ready B T a) (hab : ByProducer B T a b) : s.Ready B T b := by
  cases s with
  | idle => exact trivial
  | looking rest =>
    exact Sustains.stable (R := ByProducer B T) (fun _ _ _ => ByProducer.trans) h hab
  | holding v => exact AtHeader.stable h hab
  | committing v rest =>
    rcases h with ⟨hrest, hv⟩ | hrest
    · exact .inl ⟨hrest, hv.stable hab⟩
    · exact .inr hrest

namespace Parties

/-- The invariant of the system. -/
structure Safe (B T : Nat) (x : Parties) : Prop where
  inv : x.shared.Inv B T
  sized : Sized x.queue B
  producer : x.producer.Ready B T x.shared
  consumer : x.consumer.Ready B T x.shared

variable {B T : Nat} {x y : Parties}

/-- Attaching does not touch the storage. -/
theorem attach_eq {len : Nat} {how : Attach} {s t : SPSCStorage}
    (h : how.storage len s = some t) : t = s := by
  cases how with
  | reinterpret => exact (Option.some.inj h).symm
  | map ptr =>
    change (SPSCStorage.map ptr len s).toOption = some t at h
    cases hm : SPSCStorage.map ptr len s with
    | error e =>
      rw [hm] at h
      exact absurd h (by simp [Except.toOption])
    | ok u =>
      rw [hm] at h
      obtain rfl := Option.some.inj h
      exact eq_of_map hm

/-- A mapping at a usable address is accepted. -/
theorem Safe.map_eq (h : Safe B T x) {ptr : Nat} (hptr : ptr ≠ 0)
    (halign : ptr % spscCacheLineSize = 0) :
    SPSCStorage.map ptr (256 + B) x.shared.storage = .ok x.shared.storage :=
  (SPSCStorage.map_eq_ok_iff hptr halign).mpr
    ⟨rfl, by omega, h.inv.magic, h.inv.abiVersion, h.inv.storageSize⟩

/-- **A step of the producer** leaves a safe state. -/
theorem Safe.producerStep (h : Safe B T x) (hs : x.producerStep (256 + B) = some y) :
    Safe B T y := by
  obtain ⟨sh, q, ps, cs⟩ := x
  have hp := h.producer
  cases ps with
  | idle => exact absurd hs (by simp [Parties.producerStep])
  | enqueuing p rest =>
    cases rest with
    | ret ok =>
      obtain rfl := Option.some.inj hs
      exact ⟨h.inv, h.sized, trivial, h.consumer⟩
    | step o k =>
      -- what the step respects is what the consumer relies on
      obtain ⟨⟨r, sh'⟩, he, rfl⟩ := Option.map_eq_some_iff.mp hs
      obtain ⟨hby, hrest⟩ := Sustains.next ByConsumer.refl hp he
      exact ⟨hby.inv h.inv, h.sized, hrest, h.consumer.stable hby⟩

/-- The two steps of `dequeue_commit`. -/
theorem Safe.commitStep (h : Safe B T x) {v : MessageView} {o : MemOp} {k : o.Ret → QProg Unit}
    (hc : x.consumer = .committing v (.step o k)) {r : o.Ret} {sh : Shared}
    (he : commit (256 + B) v o x.shared = some (r, sh)) :
    ByConsumer B T x.shared sh ∧ (ConsumerState.committing v (k r)).Ready B T sh := by
  have hready := h.consumer
  have hlt := h.sized.lt
  rw [hc] at hready
  rcases hready with ⟨hrest, hv⟩ | hrest | hrest
  · -- the store of the read index
    unfold SPSCQueue.dequeueCommit QProg.store QProg.fetchSub at hrest
    simp only [Prog.step_bind, Prog.ret_bind] at hrest
    obtain ⟨rfl, hk⟩ := Prog.step.inj hrest
    obtain rfl := eq_of_heq hk
    have hb : (MemOp.store .readIx (nextIndex v.index v.totalSize)).InBounds (256 + B) := by
      change 64 + 8 ≤ 256 + B
      omega
    rw [commit_eq hb (by simp)] at he
    obtain ⟨rfl, rfl⟩ := Prod.mk.inj (Option.some.inj he)
    exact ⟨(hv.byConsumer_commit hlt).2, .inr (.inl rfl)⟩
  · -- the counter
    obtain ⟨rfl, hk⟩ := Prog.step.inj hrest
    obtain rfl := eq_of_heq hk
    have hb : (MemOp.fetchSub .msgCount 1).InBounds (256 + B) := by
      change 192 + 8 ≤ 256 + B
      omega
    rw [commit_eq hb (by simp)] at he
    obtain ⟨rfl, rfl⟩ := Prod.mk.inj (Option.some.inj he)
    refine ⟨⟨fun hi => hi.of_counter _, rfl, rfl, fun hle => ⟨le_refl _, hle⟩,
      fun hlt => ⟨hlt, le_refl _⟩⟩, .inr (.inr rfl)⟩
  · -- a call that has returned has no step left
    exact absurd hrest (by simp)

/-- **A step of the consumer** leaves a safe state. -/
theorem Safe.consumerStep (h : Safe B T x) (hs : x.consumerStep (256 + B) = some y) :
    Safe B T y := by
  obtain ⟨sh, q, ps, cs⟩ := x
  have hc := h.consumer
  cases cs with
  | idle => exact absurd hs (by simp [Parties.consumerStep])
  | holding v => exact absurd hs (by simp [Parties.consumerStep])
  | looking rest =>
    cases rest with
    | ret r =>
      have hpost : RoundPost B T r sh :=
        (show Looks B T (.ret r) sh from hc).done ByProducer.refl
      cases r with
      | none =>
        -- the jump back: another round
        obtain rfl := Option.some.inj hs
        exact ⟨h.inv, h.sized, h.producer, dequeueBeginRound_sustained h.sized.mod_eight h.inv⟩
      | some v =>
        obtain rfl := Option.some.inj hs
        -- an empty view leaves the consumer idle, any other one it holds
        refine ⟨h.inv, h.sized, h.producer, ?_⟩
        cases hv : v.empty with
        | true => exact trivial
        | false => exact hpost v rfl hv
    | step o k =>
      obtain ⟨⟨r, sh'⟩, he, rfl⟩ := Option.map_eq_some_iff.mp hs
      obtain ⟨hby, hrest⟩ := Sustains.next ByProducer.refl hc he
      exact ⟨hby.inv h.inv, h.sized, h.producer.stable hby, hrest⟩
  | committing v rest =>
    cases rest with
    | ret u =>
      obtain rfl := Option.some.inj hs
      exact ⟨h.inv, h.sized, h.producer, trivial⟩
    | step o k =>
      obtain ⟨⟨r, sh'⟩, he, rfl⟩ := Option.map_eq_some_iff.mp hs
      obtain ⟨hby, hrest⟩ := h.commitStep rfl he
      exact ⟨hby.inv h.inv, h.sized, h.producer.stable hby, hrest⟩

/-- **Every action keeps the system safe.** -/
theorem Safe.act (h : Safe B T x) {a : Action} (hl : Uniform T x a)
    (hs : x.act (256 + B) a = some y) : Safe B T y := by
  have hlt := h.sized.lt
  cases a with
  | enqueue p =>
    obtain ⟨sh, q, ps, cs⟩ := x
    cases ps with
    | idle =>
      obtain rfl := Option.some.inj hs
      -- the footprint is all that the programs know of uniformity
      have hT : slot p.length = T := by
        rw [← nextIndex_zero_totalSize h.sized hl.1]
        exact hl.2
      exact ⟨h.inv, h.sized, enqueue_sustained h.sized hl.1 hT h.inv, h.consumer⟩
    | enqueuing p' rest => exact absurd hs (by simp [Parties.act])
  | producerStep => exact h.producerStep hs
  | replaceProducer how =>
    obtain ⟨s, hs', rfl⟩ := Option.map_eq_some_iff.mp hs
    obtain rfl := attach_eq hs'
    -- the new handle is computed from a header that was never written to
    have hsized := sized_construct h.inv.storageSize (Nat.le_add_right 256 B)
    rw [Nat.add_sub_cancel_left] at hsized
    have hsized := hsized hlt h.sized.mod_eight h.sized.sixteen_le
    exact ⟨h.inv, hsized, trivial, h.consumer⟩
  | dequeueBegin =>
    obtain ⟨sh, q, ps, cs⟩ := x
    -- a consumer that holds a view may look again without a commit
    have hlook := dequeueBeginRound_sustained h.sized.mod_eight h.inv
    cases cs with
    | idle =>
      obtain rfl := Option.some.inj hs
      exact ⟨h.inv, h.sized, h.producer, hlook⟩
    | holding v =>
      obtain rfl := Option.some.inj hs
      exact ⟨h.inv, h.sized, h.producer, hlook⟩
    | looking rest => exact absurd hs (by simp [Parties.act])
    | committing v rest => exact absurd hs (by simp [Parties.act])
  | dequeueCommit =>
    obtain ⟨sh, q, ps, cs⟩ := x
    cases cs with
    | holding v =>
      obtain rfl := Option.some.inj hs
      exact ⟨h.inv, h.sized, h.producer, .inl ⟨rfl, h.consumer⟩⟩
    | idle => exact absurd hs (by simp [Parties.act])
    | looking rest => exact absurd hs (by simp [Parties.act])
    | committing v rest => exact absurd hs (by simp [Parties.act])
  | consumerStep => exact h.consumerStep hs
  | replaceConsumer how =>
    obtain ⟨s, hs', rfl⟩ := Option.map_eq_some_iff.mp hs
    obtain rfl := attach_eq hs'
    exact ⟨h.inv, h.sized, h.producer, trivial⟩

/-- **No party is stuck inside a call.** -/
theorem Safe.producerStep_isSome (h : Safe B T x) (hb : x.ProducerBusy) :
    (x.producerStep (256 + B)).isSome := by
  obtain ⟨p, rest, hp⟩ := hb
  have hready := h.producer
  rw [hp] at hready
  unfold Parties.producerStep
  rw [hp]
  cases rest with
  | ret ok => rfl
  | step o k =>
    have hsome := Sustains.progress ByConsumer.refl hready
    simpa using hsome

/-- A consumer in a call has a next step. -/
theorem Safe.consumerStep_isSome (h : Safe B T x) (hb : x.ConsumerBusy) :
    (x.consumerStep (256 + B)).isSome := by
  have hready := h.consumer
  unfold Parties.consumerStep
  rcases hb with ⟨rest, hc⟩ | ⟨v, rest, hc⟩
  · rw [hc] at hready ⊢
    cases rest with
    | ret r => cases r <;> rfl
    | step o k =>
      have hsome := Sustains.progress ByProducer.refl hready
      simpa using hsome
  · rw [hc] at hready ⊢
    rcases hready with ⟨rfl, -⟩ | rfl | rfl
    · -- before the store of the read index
      have hb : (MemOp.store .readIx (nextIndex v.index v.totalSize)).InBounds (256 + B) := by
        change 64 + 8 ≤ 256 + B
        omega
      have hstep := commit_eq (x := x.shared) hb (by simp) v
      exact Option.isSome_map.trans (by rw [hstep]; rfl)
    · -- before the counter
      have hb : (MemOp.fetchSub .msgCount 1).InBounds (256 + B) := by
        change 192 + 8 ≤ 256 + B
        omega
      have hstep := commit_eq (x := x.shared) hb (by simp) v
      exact Option.isSome_map.trans (by rw [hstep]; rfl)
    · rfl

/-- A view the consumer may read through is on the message at the reader. -/
theorem Safe.atHeader_of_view (h : Safe B T x) {v : MessageView} (hv : x.view = some v) :
    AtHeader B T v x.shared := by
  have hready := h.consumer
  unfold Parties.view at hv
  split at hv
  · next hc =>
    obtain rfl := Option.some.inj hv
    rw [hc] at hready
    exact hready
  · next hc =>
    obtain rfl := Option.some.inj hv
    rw [hc] at hready
    -- the store is still to come, so the commit has not begun to take effect
    rcases hready with ⟨-, hat⟩ | hrest | hrest
    · exact hat
    · exact absurd (Prog.step.inj hrest).1 (by simp)
    · exact absurd hrest (by simp)
  · exact absurd hv (by simp)

/-- A fresh queue is safe. -/
theorem Safe.start {s : SPSCStorage} {q : SPSCQueue} {raw : Mem} {n : Nat}
    (hs : s = SPSCStorage.construct n raw) (hn : n = 256 + B) (hq : Sized q B) :
    Safe B T (Parties.start s q) := by
  have hB := hq.sixteen_le
  subst hs
  refine ⟨⟨rfl, rfl, hn, Nat.dvd_zero T, Nat.dvd_zero T, [], [], ?_, rfl, ?_⟩, hq, trivial,
    trivial⟩
  · exact Layout.fresh (by omega) raw
  · exact fun p hp => absurd hp (by simp)

/-- Every run keeps the system safe. -/
theorem Safe.reaches {acts : List Action} (h : Safe B T x)
    (hr : Reaches (Parties.step (256 + B)) (Uniform T) x acts y) : Safe B T y := by
  refine hr.invariant (I := Safe B T) ?_ h
  intro z a u z' hz hl hstep
  obtain ⟨w, hact, hw⟩ := Option.map_eq_some_iff.mp hstep
  obtain ⟨-, rfl⟩ := Prod.mk.inj hw
  exact hz.act hl hact

end Parties

open Parties

/-- **Safety of the protocol.** On a fresh storage of an accepted size, with messages of footprint
`T` only, after any interleaving of the steps of a producer and a consumer, each of them replaced
any number of times: the committed messages are a prefix of the published ones; a view shows the
message after the committed ones; a party inside a call can take its next step; and a new party is
accepted. -/
theorem protocol_safety {available : Nat → Bool} {raw : Mem} {n : Nat} {s : SPSCStorage}
    {q : SPSCQueue} (hs : SPSCStorage.create available raw n = .ok s)
    (hq : SPSCQueue.create s = .ok q) {T : Nat} {acts : List Action} {x : Parties}
    (hr : Reaches (Parties.step n) (Uniform T) (Parties.start s q) acts x) :
    x.shared.committed <+: x.shared.published ∧
      (∀ v, x.view = some v → x.shared.published[x.shared.committed.length]? =
        some (v.bytes x.shared.storage.buffer)) ∧
      (x.ProducerBusy → (x.producerStep n).isSome) ∧
      (x.ConsumerBusy → (x.consumerStep n).isSome) ∧
      ∀ ptr, ptr ≠ 0 → ptr % spscCacheLineSize = 0 →
        SPSCStorage.map ptr n x.shared.storage = .ok x.shared.storage := by
  obtain ⟨hfresh, hn, hsized⟩ := sized_of_create hs hq
  have h₀ : Safe (n - 256) T (Parties.start s q) := Safe.start hfresh hn hsized
  rw [hn] at hr
  have h := h₀.reaches hr
  -- what is published is what is committed, followed by what is in the buffer
  obtain ⟨front, back, -, hpub, -⟩ := h.inv.contents
  refine ⟨⟨front ++ back, hpub.symm⟩, fun v hv => ?_, fun hb => ?_, fun hb => ?_,
    fun ptr hptr halign => ?_⟩
  · obtain ⟨p, rest, back', hpub', hbytes, -⟩ := (h.atHeader_of_view hv).shows
    rw [hpub', hbytes, List.getElem?_append_right (le_refl _), Nat.sub_self]
    rfl
  · rw [hn]
    exact h.producerStep_isSome hb
  · rw [hn]
    exact h.consumerStep_isSome hb
  · rw [hn]
    exact h.map_eq hptr halign

/-- A producer that stops after the `write_ix` store of its message and is replaced, and a consumer
that stops after the `read_ix` store of its commit and is replaced. -/
def crashingRun : List Action :=
  .enqueue [1] :: List.replicate 7 .producerStep ++ [.replaceProducer .reinterpret] ++
    .dequeueBegin :: List.replicate 4 .consumerStep ++
    [.dequeueCommit, .consumerStep, .replaceConsumer (.map 4096)]

/-- The message of the producer that stopped is committed by the consumer that stopped. -/
theorem protocol_safety_crashing :
    ∃ x, Reaches (Parties.step 320) (Uniform 16) (Parties.start storage64 queue64) crashingRun x ∧
      x.shared.committed <+: x.shared.published ∧ x.shared.committed = [[1]] := by
  obtain ⟨x, hx⟩ : ∃ x, follow (Parties.step 320) (Parties.start storage64 queue64)
      crashingRun = some x :=
    Option.isSome_iff_exists.mp (by decide +kernel)
  have hr : Reaches (Parties.step 320) (Uniform 16) (Parties.start storage64 queue64)
      crashingRun x :=
    .of_follow hx (by decide +kernel)
  have hcommitted : (follow (Parties.step 320) (Parties.start storage64 queue64)
      crashingRun).map (fun z => z.shared.committed) = some [[1]] := by
    decide +kernel
  rw [hx, Option.map_some, Option.some.injEq] at hcommitted
  exact ⟨x, hr, (protocol_safety create_storage64 create_queue64 hr).1, hcommitted⟩

end PosixIpc
