import PosixIpc.Spsc.Protocol
import PosixIpc.Spsc.Mixed

/-!
# The protocol with messages of all sizes

The system of one producer and one consumer (`Parties`), with messages whose sizes vary freely.
`Heeds` is the condition on a run: payloads are legal, and whenever `enqueue` loads the read index,
the message would not overwrite unread ones at that moment.

* `mixed_protocol_safety`: whatever the interleaving and however often the parties are replaced, what
  was committed is a prefix of what was published, a view shows the next message until its commit,
  and no party is stuck inside a call.
* `dequeue_begin_bounded`: under this condition, before the call and during it, a `dequeue_begin`
  that begins while something is published and not committed comes to a view of the oldest such
  message after at most ten steps of the consumer's own, whatever else the producer does meanwhile. It
  never answers that the queue is empty.
-/

namespace PosixIpc

open Framework SPSCQueue SPSCStorage Session

namespace Mixed

open Shared (produce look commit produce_eq look_eq commit_eq)

/-! ### The condition on a run -/

/-- Payloads are legal, and a message does not overwrite unread ones at the moment `enqueue` loads
the read index for it. -/
def Heeds (x : Parties) : Action → Prop
  | .enqueue p => LegalPayload x.queue p
  | .producerStep =>
    match x.producer with
    | .enqueuing p (.step (.load .readIx) _) => ¬ Overwrites x.queue x.shared.storage p
    | _ => True
  | _ => True

instance (x : Parties) : (a : Action) → Decidable (Heeds x a)
  | .enqueue p => inferInstanceAs (Decidable (LegalPayload x.queue p))
  | .producerStep => by
    unfold Heeds
    exact match x.producer with
      | .enqueuing p (.step (.load .readIx) _) =>
        inferInstanceAs (Decidable (¬ Overwrites x.queue x.shared.storage p))
      | .idle => isTrue trivial
      | .enqueuing _ (.ret _) => isTrue trivial
      | .enqueuing _ (.step (.load .writeIx) _) => isTrue trivial
      | .enqueuing _ (.step (.load .msgCount) _) => isTrue trivial
      | .enqueuing _ (.step (.store _ _) _) => isTrue trivial
      | .enqueuing _ (.step (.fetchAdd _ _) _) => isTrue trivial
      | .enqueuing _ (.step (.fetchSub _ _) _) => isTrue trivial
      | .enqueuing _ (.step (.memcpyTo _ _) _) => isTrue trivial
      | .enqueuing _ (.step (.memcpySizeFrom _) _) => isTrue trivial
      | .enqueuing _ (.step (.memset _ _ _) _) => isTrue trivial
      | .enqueuing _ (.step (.assert _) _) => isTrue trivial
  | .replaceProducer _ | .dequeueBegin | .dequeueCommit | .consumerStep | .replaceConsumer _ =>
    isTrue trivial

/-! ### What keeps the system safe -/

/-- `enqueue` behind its assertions. -/
def loads (q : SPSCQueue) (p : Payload) : QProg Bool :=
  .step (.load .readIx) fun readIx => .step (.load .writeIx) fun writeIx =>
    enqueueDecided ⟨p⟩ writeIx (q.decision readIx writeIx (Message.mk p).totalSize)

/-- The producer has not yet loaded the read index. -/
inductive Starts (q : SPSCQueue) (p : Payload) : QProg Bool → Prop where
  | first : Starts q p (q.enqueue ⟨p⟩)
  | second : Starts q p
      (.step (.assert ((Message.mk p).size ≤ q.maxPayloadSize)) fun _ => loads q p)
  | third : Starts q p (loads q p)

/-- What is left of the producer's call can be carried on. -/
def ProducerReady (B : Nat) (q : SPSCQueue) (x : Shared) : ProducerState → Prop
  | .idle => True
  | .enqueuing p rest => (LegalPayload q p ∧ Starts q p rest) ∨ Produces B p rest x

/-- What is left of the consumer's call can be carried on, and its view shows a message. -/
def ConsumerReady (B : Nat) (x : Shared) : ConsumerState → Prop
  | .idle => True
  | .looking rest => Looks B False False rest x
  | .holding v => AtHeader B v x
  | .committing v rest =>
    (rest = SPSCQueue.dequeueCommit v ∧ AtHeader B v x) ∨
      rest = .step (.fetchSub .msgCount 1) .ret ∨ rest = .ret ()

/-- The invariant of the system. -/
structure Safe (B : Nat) (x : Parties) : Prop where
  inv : Inv B x.shared
  sized : Sized x.queue B
  producer : ProducerReady B x.queue x.shared x.producer
  consumer : ConsumerReady B x.shared x.consumer

variable {B : Nat} {x y : Parties} {sh sh' : Shared}

/-- What the producer is in the middle of is not disturbed by the consumer. -/
theorem producerReady_stable {q : SPSCQueue} {s : ProducerState} (h : ProducerReady B q sh s)
    (hby : ByConsumer B sh sh') : ProducerReady B q sh' s := by
  cases s with
  | idle => exact trivial
  | enqueuing p rest =>
    rcases h with h | h
    · exact .inl h
    · exact .inr (Sustains.stable (R := ByConsumer B) (fun _ _ _ => ByConsumer.trans) h hby)

/-- What the consumer is in the middle of is not disturbed by the producer. -/
theorem consumerReady_stable {s : ConsumerState} (h : ConsumerReady B sh s)
    (hby : ByProducer B sh sh') : ConsumerReady B sh' s := by
  cases s with
  | idle => exact trivial
  | looking rest =>
    exact Sustains.stable (R := ByProducer B) (fun _ _ _ => ByProducer.trans) h hby
  | holding v => exact AtHeader.stable h hby
  | committing v rest =>
    rcases h with ⟨hrest, hv⟩ | hrest
    · exact .inl ⟨hrest, hv.stable hby⟩
    · exact .inr hrest

/-- **A step of the producer.** The condition is used at the load of the read index. -/
theorem Safe.producerStep (h : Safe B x) (hl : Heeds x .producerStep)
    (hs : x.producerStep (256 + B) = some y) :
    Safe B y ∧ ByProducer B x.shared y.shared ∧ y.consumer = x.consumer := by
  obtain ⟨sh, q, ps, cs⟩ := x
  have hp := h.producer
  have ha : ∀ b, (MemOp.assert b).InBounds (256 + B) := fun _ => trivial
  have hr : (MemOp.load .readIx).InBounds (256 + B) := by
    change 64 + 8 ≤ 256 + B
    omega
  cases ps with
  | idle => exact absurd hs (by simp [Parties.producerStep])
  | enqueuing p rest =>
    change (LegalPayload q p ∧ Starts q p rest) ∨ Produces B p rest sh at hp
    -- before its load of the write index the producer has promised nothing, so it needs no
    -- condition
    rcases hp with ⟨hlegal, hstart⟩ | hp
    · have hpos : 0 < p.length := hlegal.1
      have hmax : p.length ≤ q.maxPayloadSize := hlegal.2
      cases hstart with
      | first =>
        rw [enqueue_eq] at hs
        obtain ⟨⟨r, sh'⟩, he, rfl⟩ := Option.map_eq_some_iff.mp hs
        rw [produce_eq (ha _) (by simp [hpos])] at he
        obtain ⟨rfl, rfl⟩ := Prod.mk.inj (Option.some.inj he)
        exact ⟨⟨h.inv, h.sized, .inl ⟨hlegal, .second⟩, h.consumer⟩, .refl _, rfl⟩
      | second =>
        obtain ⟨⟨r, sh'⟩, he, rfl⟩ := Option.map_eq_some_iff.mp hs
        rw [produce_eq (ha _) (by simp [hmax])] at he
        obtain ⟨rfl, rfl⟩ := Prod.mk.inj (Option.some.inj he)
        exact ⟨⟨h.inv, h.sized, .inl ⟨hlegal, .third⟩, h.consumer⟩, .refl _, rfl⟩
      | third =>
        obtain ⟨⟨r, sh'⟩, he, rfl⟩ := Option.map_eq_some_iff.mp hs
        rw [produce_eq hr (by simp)] at he
        obtain ⟨rfl, rfl⟩ := Prod.mk.inj (Option.some.inj he)
        -- here the decision falls, on the read index just loaded
        have hdecided := decided_sustained h.sized hlegal (h.inv.decided h.sized hlegal hl)
        exact ⟨⟨h.inv, h.sized, .inr hdecided, h.consumer⟩, .refl _, rfl⟩
    · -- from the decision on, the program is sustained under what the consumer may do
      cases rest with
      | ret ok =>
        obtain rfl := Option.some.inj hs
        exact ⟨⟨h.inv, h.sized, trivial, h.consumer⟩, .refl _, rfl⟩
      | step o k =>
        obtain ⟨⟨r, sh'⟩, he, rfl⟩ := Option.map_eq_some_iff.mp hs
        obtain ⟨hby, hrest⟩ := Sustains.next ByConsumer.refl hp he
        exact ⟨⟨hby.inv h.inv, h.sized, .inr hrest, consumerReady_stable h.consumer hby⟩, hby, rfl⟩

/-- The two steps of `dequeue_commit`. -/
theorem Safe.commitStep (h : Safe B x) {v : MessageView} {o : MemOp} {k : o.Ret → QProg Unit}
    (hc : x.consumer = .committing v (.step o k)) {r : o.Ret}
    (he : commit (256 + B) v o x.shared = some (r, sh)) :
    ByConsumer B x.shared sh ∧ ConsumerReady B sh (.committing v (k r)) := by
  have hready := h.consumer
  rw [hc] at hready
  rcases hready with ⟨hrest, hv⟩ | hrest | hrest
  · -- the store of the read index
    unfold SPSCQueue.dequeueCommit QProg.store QProg.fetchSub at hrest
    simp only [Prog.step_bind, Prog.ret_bind] at hrest
    obtain ⟨rfl, hk⟩ := Prog.step.inj hrest
    obtain rfl := eq_of_heq hk
    have hb : (MemOp.store .readIx (nextIndex v.index v.totalSize)).InBounds (256 + B) := by
      change 64 + 8 ≤ 256 + B
      omega
    rw [commit_eq hb (by simp)] at he
    obtain ⟨rfl, rfl⟩ := Prod.mk.inj (Option.some.inj he)
    exact ⟨hv.byConsumer_commit h.sized.lt, .inr (.inl rfl)⟩
  · -- the counter
    obtain ⟨rfl, hk⟩ := Prog.step.inj hrest
    obtain rfl := eq_of_heq hk
    have hb : (MemOp.fetchSub .msgCount 1).InBounds (256 + B) := by
      change 192 + 8 ≤ 256 + B
      omega
    rw [commit_eq hb (by simp)] at he
    obtain ⟨rfl, rfl⟩ := Prod.mk.inj (Option.some.inj he)
    exact ⟨⟨fun hi => hi.of_counter _, rfl, rfl, fun hle => ⟨le_refl _, hle⟩,
      fun hlt => ⟨hlt, le_refl _⟩⟩, .inr (.inr rfl)⟩
  · exact absurd hrest (by simp)

/-- A round of `dequeue_begin` can be started in a safe state. -/
theorem Safe.round (h : Safe B x) : Looks B False False dequeueBeginRound x.shared :=
  round_sustained h.sized.mod_eight h.inv False.elim False.elim

/-- **A step of the consumer.** -/
theorem Safe.consumerStep (h : Safe B x) (hs : x.consumerStep (256 + B) = some y) : Safe B y := by
  obtain ⟨sh, q, ps, cs⟩ := x
  have hc := h.consumer
  cases cs with
  | idle => exact absurd hs (by simp [Parties.consumerStep])
  | holding v => exact absurd hs (by simp [Parties.consumerStep])
  | looking rest =>
    cases rest with
    -- a round has returned: it looked past a sentinel, or it found a message or nothing
    | ret r =>
      have hpost : Found B False False r sh :=
        (show Looks B False False (.ret r) sh from hc).done ByProducer.refl
      cases r with
      | none =>
        obtain rfl := Option.some.inj hs
        exact ⟨h.inv, h.sized, h.producer, h.round⟩
      | some v =>
        obtain rfl := Option.some.inj hs
        refine ⟨h.inv, h.sized, h.producer, ?_⟩
        cases hv : v.empty with
        | true => exact trivial
        | false =>
          rcases hpost with hat | ⟨hempty, -⟩
          · exact hat
          · exact absurd (hempty.symm.trans hv) (by simp)
    -- within a round
    | step o k =>
      obtain ⟨⟨r, sh'⟩, he, rfl⟩ := Option.map_eq_some_iff.mp hs
      obtain ⟨hby, hrest⟩ := Sustains.next ByProducer.refl hc he
      exact ⟨hby.inv h.inv, h.sized, producerReady_stable h.producer hby, hrest⟩
  | committing v rest =>
    -- the message is committed, and the consumer holds nothing any more
    cases rest with
    | ret u =>
      obtain rfl := Option.some.inj hs
      exact ⟨h.inv, h.sized, h.producer, trivial⟩
    | step o k =>
      obtain ⟨⟨r, sh'⟩, he, rfl⟩ := Option.map_eq_some_iff.mp hs
      obtain ⟨hby, hrest⟩ := h.commitStep rfl he
      exact ⟨hby.inv h.inv, h.sized, producerReady_stable h.producer hby, hrest⟩

/-- **Every action keeps the system safe.** -/
theorem Safe.act (h : Safe B x) {a : Action} (hl : Heeds x a)
    (hs : x.act (256 + B) a = some y) : Safe B y := by
  have hlt := h.sized.lt
  cases a with
  | enqueue p =>
    obtain ⟨sh, q, ps, cs⟩ := x
    cases ps with
    | idle =>
      obtain rfl := Option.some.inj hs
      exact ⟨h.inv, h.sized, .inl ⟨hl, .first⟩, h.consumer⟩
    | enqueuing p' rest => exact absurd hs (by simp [Parties.act])
  | producerStep => exact (h.producerStep hl hs).1
  | replaceProducer how =>
    obtain ⟨s, hs', rfl⟩ := Option.map_eq_some_iff.mp hs
    obtain rfl := Parties.attach_eq hs'
    -- the new handle is computed from a header that was never written to
    have hsized := sized_construct h.inv.storageSize (Nat.le_add_right 256 B)
    rw [Nat.add_sub_cancel_left] at hsized
    exact ⟨h.inv, hsized hlt h.sized.mod_eight h.sized.sixteen_le, trivial, h.consumer⟩
  | dequeueBegin =>
    have hlook := h.round
    obtain ⟨sh, q, ps, cs⟩ := x
    cases cs with
    | idle =>
      obtain rfl := Option.some.inj hs
      exact ⟨h.inv, h.sized, h.producer, hlook⟩
    | holding v =>
      obtain rfl := Option.some.inj hs
      exact ⟨h.inv, h.sized, h.producer, hlook⟩
    | looking rest => exact absurd hs (by simp [Parties.act])
    | committing v rest => exact absurd hs (by simp [Parties.act])
  | dequeueCommit =>
    obtain ⟨sh, q, ps, cs⟩ := x
    cases cs with
    | holding v =>
      obtain rfl := Option.some.inj hs
      exact ⟨h.inv, h.sized, h.producer, .inl ⟨rfl, h.consumer⟩⟩
    | idle => exact absurd hs (by simp [Parties.act])
    | looking rest => exact absurd hs (by simp [Parties.act])
    | committing v rest => exact absurd hs (by simp [Parties.act])
  | consumerStep => exact h.consumerStep hs
  | replaceConsumer how =>
    obtain ⟨s, hs', rfl⟩ := Option.map_eq_some_iff.mp hs
    obtain rfl := Parties.attach_eq hs'
    exact ⟨h.inv, h.sized, h.producer, trivial⟩

/-- A fresh queue is safe. -/
theorem Safe.start {s : SPSCStorage} {q : SPSCQueue} {raw : Mem} {n : Nat}
    (hs : s = SPSCStorage.construct n raw) (hn : n = 256 + B) (hq : Sized q B) :
    Safe B (Parties.start s q) := by
  have hB := hq.sixteen_le
  subst hs
  exact ⟨⟨rfl, rfl, hn, [], [], Layout.fresh (by omega) raw, rfl⟩, hq, trivial, trivial⟩

/-- Inversion of a step of the machine. -/
theorem act_of_step {n : Nat} {a : Action} {u : Unit} (h : x.step n a = some (u, y)) :
    x.act n a = some y := by
  obtain ⟨z, hact, hz⟩ := Option.map_eq_some_iff.mp h
  obtain ⟨-, rfl⟩ := Prod.mk.inj hz
  exact hact

/-- Every run keeps the system safe. -/
theorem Safe.reaches {acts : List Action} (h : Safe B x)
    (hr : Reaches (Parties.step (256 + B)) Heeds x acts y) : Safe B y :=
  hr.invariant (fun _ _ _ _ hz hl hstep => hz.act hl (act_of_step hstep)) h

/-! ### What a safe state offers -/

/-- **No party is stuck inside a call.** -/
theorem Safe.producerStep_isSome (h : Safe B x) (hb : x.ProducerBusy) :
    (x.producerStep (256 + B)).isSome := by
  obtain ⟨p, rest, hp⟩ := hb
  have hready := h.producer
  rw [hp] at hready
  unfold Parties.producerStep
  rw [hp]
  have ha : ∀ b, (MemOp.assert b).InBounds (256 + B) := fun _ => trivial
  have hr : (MemOp.load .readIx).InBounds (256 + B) := by
    change 64 + 8 ≤ 256 + B
    omega
  -- the assertions and the first load do not fault, and from the decision on nothing does
  rcases hready with ⟨hlegal, hstart⟩ | hready
  · have hpos : 0 < p.length := hlegal.1
    have hmax : p.length ≤ x.queue.maxPayloadSize := hlegal.2
    cases hstart with
    | first =>
      rw [enqueue_eq]
      exact Option.isSome_map.trans (by rw [produce_eq (ha _) (by simp [hpos])]; rfl)
    | second => exact Option.isSome_map.trans (by rw [produce_eq (ha _) (by simp [hmax])]; rfl)
    | third => exact Option.isSome_map.trans (by rw [produce_eq hr (by simp)]; rfl)
  · cases rest with
    | ret ok => rfl
    | step o k =>
      have hsome := Sustains.progress ByConsumer.refl hready
      simpa using hsome

/-- A consumer in a call has a next step. -/
theorem Safe.consumerStep_isSome (h : Safe B x) (hb : x.ConsumerBusy) :
    (x.consumerStep (256 + B)).isSome := by
  have hready := h.consumer
  unfold Parties.consumerStep
  rcases hb with ⟨rest, hc⟩ | ⟨v, rest, hc⟩
  · -- looking
    rw [hc] at hready ⊢
    cases rest with
    | ret r => cases r <;> rfl
    | step o k =>
      have hsome := Sustains.progress ByProducer.refl hready
      simpa using hsome
  · -- committing: the two accesses are to cells of the header
    rw [hc] at hready ⊢
    rcases hready with ⟨rfl, -⟩ | rfl | rfl
    · have hb : (MemOp.store .readIx (nextIndex v.index v.totalSize)).InBounds (256 + B) := by
        change 64 + 8 ≤ 256 + B
        omega
      exact Option.isSome_map.trans (by rw [commit_eq (x := x.shared) hb (by simp) v]; rfl)
    · have hb : (MemOp.fetchSub .msgCount 1).InBounds (256 + B) := by
        change 192 + 8 ≤ 256 + B
        omega
      exact Option.isSome_map.trans (by rw [commit_eq (x := x.shared) hb (by simp) v]; rfl)
    · rfl

/-- A view the consumer may read through is on the message at the reader. -/
theorem Safe.atHeader_of_view (h : Safe B x) {v : MessageView} (hv : x.view = some v) :
    AtHeader B v x.shared := by
  have hready := h.consumer
  unfold Parties.view at hv
  split at hv
  · -- the view is held, or the first access of its commit is still to come
    next hc =>
    obtain rfl := Option.some.inj hv
    rw [hc] at hready
    exact hready
  · next hc =>
    obtain rfl := Option.some.inj hv
    rw [hc] at hready
    rcases hready with ⟨-, hat⟩ | hrest | hrest
    · exact hat
    · exact absurd (Prog.step.inj hrest).1 (by simp)
    · exact absurd hrest (by simp)
  · exact absurd hv (by simp)

/-- A view shows the message behind the committed ones. -/
theorem AtHeader.next_eq {v : MessageView} (h : AtHeader B v sh) :
    sh.published[sh.committed.length]? = some (v.bytes sh.storage.buffer) := by
  obtain ⟨p, rest, back, hpub, hbytes, -⟩ := h.shows
  rw [hpub, hbytes, List.getElem?_append_right (le_refl _), Nat.sub_self]
  rfl

/-! ### A call of `dequeue_begin` with something to read -/

/-- The consumer goes on with the call it is in. -/
def Undisturbed : Action → Prop
  | .dequeueBegin => False
  | .dequeueCommit => False
  | .replaceConsumer _ => False
  | _ => True

instance : (a : Action) → Decidable (Undisturbed a)
  | .dequeueBegin | .dequeueCommit | .replaceConsumer _ => isFalse id
  | .enqueue _ | .producerStep | .replaceProducer _ | .consumerStep => isTrue trivial

/-- A step of the consumer. -/
def isConsumerStep : Action → Bool
  | .consumerStep => true
  | _ => false

/-- The consumer holds a view of the next message, or it will after at most `n` of its steps: it is
in its first round, or in the second one and stands at a message. -/
def Seeks (B n : Nat) (x : Parties) : Prop :=
  match x.consumer with
  | .looking rest =>
    (∃ m, Looks B True False rest x.shared ∧ rest.Within m ∧ m + 6 ≤ n) ∨
      ∃ m, Looks B True True rest x.shared ∧ rest.Within m ∧ m + 1 ≤ n
  | .holding v => AtHeader B v x.shared
  | _ => False

/-- A round takes at most four accesses. -/
theorem within_dequeueBeginRound : dequeueBeginRound.Within 4 := by
  rw [dequeueBeginRound_eq]
  intro readIx writeIx
  dsimp only
  split
  · exact trivial
  · intro messageSize
    dsimp only
    split
    · exact fun _ => trivial
    · exact trivial

/-- The producer's steps do not matter. -/
theorem Seeks.of_byProducer {n : Nat} (h : Seeks B n x) (hby : ByProducer B x.shared y.shared)
    (hc : y.consumer = x.consumer) : Seeks B n y := by
  unfold Seeks at h ⊢
  rw [hc]
  generalize x.consumer = cs at h ⊢
  -- a round that can be carried on can be carried on after the producer's step
  have hstable : ∀ {M : Prop} {rest}, Looks B True M rest x.shared →
      Looks B True M rest y.shared := fun hl =>
    Sustains.stable (R := ByProducer B) (fun _ _ _ => ByProducer.trans) hl hby
  cases cs with
  | looking rest =>
    rcases h with ⟨m, hl, hw, hm⟩ | ⟨m, hl, hw, hm⟩
    · exact .inl ⟨m, hstable hl, hw, hm⟩
    · exact .inr ⟨m, hstable hl, hw, hm⟩
  | holding v => exact h.stable hby
  | idle => exact h
  | committing v rest => exact h

/-- A round that has a step left. -/
theorem Looks.next {U M : Prop} {o : MemOp} {k : o.Ret → QProg (Option MessageView)} {m : Nat}
    (hl : Looks B U M (.step o k) sh) (hw : (Prog.step o k).Within m) {r : o.Ret}
    (he : look (256 + B) o sh = some (r, sh')) :
    Looks B U M (k r) sh' ∧ ∃ m', m = m' + 1 ∧ (k r).Within m' := by
  refine ⟨(Sustains.next ByProducer.refl hl he).2, ?_⟩
  cases m with
  | zero => exact hw.elim
  | succ m => exact ⟨m, rfl, hw r⟩

/-- **A step of the consumer** brings the view nearer. -/
theorem Seeks.consumerStep {n : Nat} (h : Seeks B n x) (hsafe : Safe B x)
    (hs : x.consumerStep (256 + B) = some y) : ∃ n', n = n' + 1 ∧ Seeks B n' y := by
  obtain ⟨sh, q, ps, cs⟩ := x
  have hB := hsafe.sized.mod_eight
  cases cs with
  | idle => exact h.elim
  | committing v rest => exact h.elim
  | holding v => exact absurd hs (by simp [Parties.consumerStep])
  | looking rest =>
    cases rest with
    | step o k =>
      obtain ⟨⟨r, sh'⟩, he, rfl⟩ := Option.map_eq_some_iff.mp hs
      rcases h with ⟨m, hl, hw, hm⟩ | ⟨m, hl, hw, hm⟩
      · obtain ⟨hl', m', rfl, hw'⟩ := Looks.next hl hw he
        exact ⟨n - 1, by omega, .inl ⟨m', hl', hw', by omega⟩⟩
      · obtain ⟨hl', m', rfl, hw'⟩ := Looks.next hl hw he
        exact ⟨n - 1, by omega, .inr ⟨m', hl', hw', by omega⟩⟩
    | ret r =>
      -- the round is over: what it has found depends on which round it was
      have hfound : ∃ M, Found B True M r sh ∧ (¬ M → 6 ≤ n) ∧ 1 ≤ n := by
        rcases h with ⟨m, hl, -, hm⟩ | ⟨m, hl, -, hm⟩
        · exact ⟨False, hl.done ByProducer.refl, fun _ => by omega, by omega⟩
        · exact ⟨True, hl.done ByProducer.refl, fun hM => absurd trivial hM, by omega⟩
      obtain ⟨M, hpost, hM, hn⟩ := hfound
      cases r with
      | none =>
        obtain rfl := Option.some.inj hs
        obtain ⟨hnot, hat⟩ := hpost
        have hsix := hM hnot
        refine ⟨n - 1, by omega, .inr ⟨4, ?_, within_dequeueBeginRound, by omega⟩⟩
        exact round_sustained hB hat.inv (fun _ => hat.unread) (fun _ => hat)
      | some v =>
        obtain rfl := Option.some.inj hs
        rcases hpost with hat | ⟨-, hno⟩
        · refine ⟨n - 1, by omega, ?_⟩
          rw [hat.empty_eq]
          exact hat
        · exact absurd trivial hno

/-- A run during the call. -/
theorem Seeks.reaches {n : Nat} {acts : List Action} (h : Seeks B n x) (hsafe : Safe B x)
    (hr : Reaches (Parties.step (256 + B)) (fun t a => Heeds t a ∧ Undisturbed a) x acts y) :
    ∃ n', n = n' + acts.countP isConsumerStep ∧ Seeks B n' y := by
  induction hr generalizing n with
  | refl x => exact ⟨n, rfl, h⟩
  | @cons x z y a acts u hP hstep _ ih =>
    obtain ⟨hl, hund⟩ := hP
    have hact := act_of_step hstep
    have hsafe' := hsafe.act hl hact
    -- an action of the producer's side is not counted
    have hother : isConsumerStep a = false → Seeks B n z →
        ∃ n', n = n' + (a :: acts).countP isConsumerStep ∧ Seeks B n' y := by
      intro ha hz
      obtain ⟨n', hn, hy⟩ := ih hz hsafe'
      exact ⟨n', by rw [List.countP_cons_of_neg (by simp [ha])]; exact hn, hy⟩
    cases a with
    | enqueue p =>
      obtain ⟨sh, q, ps, cs⟩ := x
      cases ps with
      | idle =>
        obtain rfl := Option.some.inj hact
        exact hother rfl (h.of_byProducer (.refl _) rfl)
      | enqueuing p' rest => exact absurd hact (by simp [Parties.act])
    | producerStep =>
      obtain ⟨-, hby, hc⟩ := hsafe.producerStep hl hact
      exact hother rfl (h.of_byProducer hby hc)
    | replaceProducer how =>
      obtain ⟨s, hs', rfl⟩ := Option.map_eq_some_iff.mp hact
      obtain rfl := Parties.attach_eq hs'
      exact hother rfl (h.of_byProducer (.refl _) rfl)
    | consumerStep =>
      obtain ⟨n₁, rfl, hz⟩ := h.consumerStep hsafe hact
      obtain ⟨n', rfl, hy⟩ := ih hz hsafe'
      exact ⟨n', by rw [List.countP_cons_of_pos rfl]; omega, hy⟩
    | dequeueBegin => exact hund.elim
    | dequeueCommit => exact hund.elim
    | replaceConsumer how => exact hund.elim

end Mixed

open Mixed

/-- **Safety of the protocol with messages of all sizes.** On a fresh storage of an accepted size,
after any interleaving of the steps of a producer and a consumer, each of them replaced any number
of times, in which the payloads offered are of legal sizes and no message overwrites unread ones at
the moment `enqueue` loads the read index: the committed messages are a prefix of the published
ones; a view shows the message after the committed ones; a party inside a call can take its next
step; and a new party is accepted. -/
theorem mixed_protocol_safety {available : Nat → Bool} {raw : Mem} {n : Nat} {s : SPSCStorage}
    {q : SPSCQueue} (hs : SPSCStorage.create available raw n = .ok s)
    (hq : SPSCQueue.create s = .ok q) {acts : List Action} {x : Parties}
    (hr : Reaches (Parties.step n) Heeds (Parties.start s q) acts x) :
    x.shared.committed <+: x.shared.published ∧
      (∀ v, x.view = some v → x.shared.published[x.shared.committed.length]? =
        some (v.bytes x.shared.storage.buffer)) ∧
      (x.ProducerBusy → (x.producerStep n).isSome) ∧
      (x.ConsumerBusy → (x.consumerStep n).isSome) ∧
      ∀ ptr, ptr ≠ 0 → ptr % spscCacheLineSize = 0 →
        SPSCStorage.map ptr n x.shared.storage = .ok x.shared.storage := by
  -- the safe states are those the theorem speaks of
  obtain ⟨hfresh, hn, hsized⟩ := sized_of_create hs hq
  have h₀ : Safe (n - 256) (Parties.start s q) := Safe.start hfresh hn hsized
  rw [hn] at hr
  have h := h₀.reaches hr
  obtain ⟨front, back, -, hpub⟩ := h.inv.contents
  refine ⟨⟨front ++ back, hpub.symm⟩, fun v hv => (h.atHeader_of_view hv).next_eq, fun hb => ?_,
    fun hb => ?_, fun ptr hptr halign => ?_⟩
  · rw [hn]
    exact h.producerStep_isSome hb
  · rw [hn]
    exact h.consumerStep_isSome hb
  · rw [hn]
    exact (SPSCStorage.map_eq_ok_iff hptr halign).mpr
      ⟨rfl, by omega, h.inv.magic, h.inv.abiVersion, h.inv.storageSize⟩

/-- A message of one byte is enqueued; a producer stops in the middle of a larger one and is
replaced; the consumer has taken the first message when the next producer enqueues a third size. -/
def varyingRun : List Action :=
  [[.enqueue [1]], .replicate 9 .producerStep,
    [.enqueue (.replicate 20 2)], .replicate 5 .producerStep,
    [.replaceProducer .reinterpret, .enqueue (.replicate 10 3), .dequeueBegin],
    .replicate 2 .consumerStep, .replicate 5 .producerStep, .replicate 2 .consumerStep,
    [.dequeueCommit, .consumerStep]].flatten

/-- Messages of three sizes and a producer that is replaced: the first message is committed. -/
theorem mixed_protocol_safety_varying :
    ∃ x, Reaches (Parties.step 320) Heeds (Parties.start storage64 queue64) varyingRun x ∧
      x.shared.committed <+: x.shared.published ∧ x.shared.committed = [[1]] := by
  have hrun : (follow (Parties.step 320) (Parties.start storage64 queue64) varyingRun).map
      (fun z => z.shared.committed) = some [[1]] := by
    decide +kernel
  obtain ⟨x, hx, hcommitted⟩ := Option.map_eq_some_iff.mp hrun
  have hr : Reaches (Parties.step 320) Heeds (Parties.start storage64 queue64) varyingRun x :=
    .of_follow hx (by decide +kernel)
  exact ⟨x, hr, (mixed_protocol_safety create_storage64 create_queue64 hr).1, hcommitted⟩

/-- **`dequeue_begin` finds what is there.** Let the payloads offered be of legal sizes and no
message overwrite unread ones at the moment `enqueue` loads the read index, before the call and
during it. A call that begins while something is published and not committed takes at most ten steps
of the consumer's own, whatever else the producer does meanwhile. Until it is over the consumer can
take its next step, and then it holds a view of the oldest message that is not committed: the answer
is never that the queue is empty. -/
theorem dequeue_begin_bounded {available : Nat → Bool} {raw : Mem} {n : Nat} {s : SPSCStorage}
    {q : SPSCQueue} (hs : SPSCStorage.create available raw n = .ok s)
    (hq : SPSCQueue.create s = .ok q) {acts acts' : List Action} {x y z : Parties}
    (hr : Reaches (Parties.step n) Heeds (Parties.start s q) acts x)
    (hunread : x.shared.committed ≠ x.shared.published)
    (hbegin : x.act n .dequeueBegin = some y)
    (hr' : Reaches (Parties.step n) (fun t a => Heeds t a ∧ Undisturbed a) y acts' z) :
    acts'.countP isConsumerStep ≤ 10 ∧
      ((∃ v, z.consumer = .holding v ∧ z.shared.published[z.shared.committed.length]? =
          some (v.bytes z.shared.storage.buffer)) ∨
        ((∃ rest, z.consumer = .looking rest) ∧ acts'.countP isConsumerStep < 10 ∧
          (z.consumerStep n).isSome)) := by
  obtain ⟨hfresh, hn, hsized⟩ := sized_of_create hs hq
  have h₀ : Safe (n - 256) (Parties.start s q) := Safe.start hfresh hn hsized
  rw [hn] at hr hr' hbegin
  have hx := h₀.reaches hr
  have hy : Safe (n - 256) y := hx.act (a := .dequeueBegin) trivial hbegin
  -- the first round begins with something to read
  have hseeks : Seeks (n - 256) 10 y := by
    have hlook : Looks (n - 256) True False dequeueBeginRound x.shared :=
      round_sustained hx.sized.mod_eight hx.inv (fun _ => hx.inv.ne_iff.mpr hunread) False.elim
    obtain ⟨sh, q', ps, cs⟩ := x
    cases cs with
    | idle =>
      obtain rfl := Option.some.inj hbegin
      exact .inl ⟨4, hlook, within_dequeueBeginRound, le_refl _⟩
    | holding v =>
      obtain rfl := Option.some.inj hbegin
      exact .inl ⟨4, hlook, within_dequeueBeginRound, le_refl _⟩
    | looking rest => exact absurd hbegin (by simp [Parties.act])
    | committing v rest => exact absurd hbegin (by simp [Parties.act])
  obtain ⟨n', hcount, hz⟩ := hseeks.reaches hy hr'
  have hsafe : Safe (n - 256) z := hy.reaches (hr'.mono fun _ _ h => h.1)
  refine ⟨by omega, ?_⟩
  unfold Seeks at hz
  split at hz
  · next rest hc =>
    refine .inr ⟨⟨rest, hc⟩, ?_, ?_⟩
    · rcases hz with ⟨m, -, -, hm⟩ | ⟨m, -, -, hm⟩ <;> omega
    · rw [hn]
      exact hsafe.consumerStep_isSome (.inl ⟨rest, hc⟩)
  · next v hc => exact .inl ⟨v, hc, hz.next_eq⟩
  · exact hz.elim

/-- Two messages are enqueued and taken; a third one is put at the start of the buffer, with a
sentinel before the end. -/
def sentinelRun : List Action :=
  [[.enqueue [1]], .replicate 9 .producerStep,
    [.enqueue (.replicate 20 2)], .replicate 9 .producerStep,
    [.dequeueBegin], .replicate 4 .consumerStep, [.dequeueCommit], .replicate 3 .consumerStep,
    [.dequeueBegin], .replicate 4 .consumerStep, [.dequeueCommit], .replicate 3 .consumerStep,
    [.enqueue (.replicate 16 3)], .replicate 10 .producerStep].flatten

/-- The consumer passes the sentinel while the next message is being enqueued. -/
def passingRun : List Action :=
  [.replicate 5 .consumerStep, [.enqueue [4]], .replicate 4 .producerStep,
    .replicate 4 .consumerStep].flatten

/-- A sentinel was written before the call, and a message is published during it: nine steps are
enough. -/
theorem dequeue_begin_bounded_passing : ∃ x y z,
    Reaches (Parties.step 320) Heeds (Parties.start storage64 queue64) sentinelRun x ∧
    x.act 320 .dequeueBegin = some y ∧
    Reaches (Parties.step 320) (fun t a => Heeds t a ∧ Undisturbed a) y passingRun z ∧
    passingRun.countP isConsumerStep = 9 ∧ ∃ v, z.consumer = .holding v ∧
      z.shared.published[z.shared.committed.length]? =
        some (v.bytes z.shared.storage.buffer) := by
  have hrun : ((follow (Parties.step 320) (Parties.start storage64 queue64) sentinelRun).bind
      fun x => (x.act 320 .dequeueBegin).bind fun y =>
        (follow (Parties.step 320) y passingRun).map fun z =>
          (decide (x.shared.committed ≠ x.shared.published), decide (Along (Parties.step 320)
            (fun t a => Heeds t a ∧ Undisturbed a) y passingRun), z.view.isSome)) =
      some (true, true, true) := by decide +kernel
  obtain ⟨x, hx, hobs⟩ := Option.bind_eq_some_iff.mp hrun
  obtain ⟨y, hy, hobs⟩ := Option.bind_eq_some_iff.mp hobs
  obtain ⟨z, hz, hobs⟩ := Option.map_eq_some_iff.mp hobs
  obtain ⟨hunread, hobs⟩ := Prod.mk.inj hobs
  obtain ⟨halong, hview⟩ := Prod.mk.inj hobs
  have hr : Reaches (Parties.step 320) Heeds (Parties.start storage64 queue64) sentinelRun x :=
    .of_follow hx (by decide +kernel)
  have hr' := Reaches.of_follow hz (of_decide_eq_true halong)
  -- by the bound, the view is there after nine steps or the consumer is still looking
  refine ⟨x, y, z, hr, hy, hr', by decide, ?_⟩
  rcases (dequeue_begin_bounded create_storage64 create_queue64 hr (of_decide_eq_true hunread) hy
    hr').2 with hholds | ⟨⟨rest, hlooking⟩, -⟩
  · exact hholds
  · unfold Parties.view at hview
    rw [hlooking] at hview
    exact absurd hview (by simp)

end PosixIpc
