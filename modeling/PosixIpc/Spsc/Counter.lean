import PosixIpc.Spsc.Protocol

/-!
# What `size()` says about the queue

`size()` reads the message counter, which each party updates after it has moved its index. So the
counter lags: it lacks a message whose `write_ix` store was performed and whose `fetch_add` was not,
and it still has one whose `read_ix` store was performed and whose `fetch_sub` was not. `Counted` is
this as an equation modulo `2 ^ 64`, for every interleaving of one producer and one consumer.

The documentation reads it as two one-sided bounds. The consumer's bound forgets that the counter is
unsigned: between the producer's store and its `fetch_add`, the consumer can see the message, commit
it and bring the counter from zero to `2 ^ 64 - 1`. `size_bounds_iff` says exactly when the bounds
hold; for messages of one footprint that is the only exception (`size_bounds_uniform`).
-/

namespace PosixIpc

open Framework SPSCQueue SPSCStorage Shared

/-! ### The two programs and the counter -/

/-- A step that leaves the message counter alone. -/
def MemOp.KeepsCount : MemOp → Prop
  | .store .msgCount _ | .fetchAdd .msgCount _ | .fetchSub .msgCount _ => False
  | _ => True

/-- The other steps leave the counter as it is. -/
theorem SPSCStorage.msgCount_effect {o : MemOp} (ho : o.KeepsCount) (s : SPSCStorage) :
    (effect o s).2.msgCount = s.msgCount := by
  -- the three steps that can reach the counter are excluded, in other cells they may happen
  cases o with
  | store c v =>
    cases c with
    | msgCount => exact ho.elim
    | readIx => rfl
    | writeIx => rfl
  | fetchAdd c n =>
    cases c with
    | msgCount => exact ho.elim
    | readIx => rfl
    | writeIx => rfl
  | fetchSub c n =>
    cases c with
    | msgCount => exact ho.elim
    | readIx => rfl
    | writeIx => rfl
  | _ => rfl

/-- The end of `enqueue` behind the `write_ix` store. -/
def counting : QProg Bool := .step (.fetchAdd .msgCount 1) fun _ => .ret true

/-- The end of `dequeue_commit` behind the `read_ix` store. -/
def uncounting : QProg Unit := .step (.fetchSub .msgCount 1) .ret

/-- What is left of an `enqueue` that has not published yet: it ends without, or it stores the write
index and has the message left to count. -/
def Unpublished : QProg Bool → Prop
  | .ret _ => True
  | .step (.store .writeIx _) k => k () = counting
  | .step o k => o.KeepsCount ∧ ∀ r, Unpublished (k r)

/-- An `enqueue` begins unpublished, whichever branch it will take. -/
theorem unpublished_enqueue (q : SPSCQueue) (msg : Message) : Unpublished (q.enqueue msg) := by
  rw [enqueue_eq]
  refine ⟨trivial, fun _ => ⟨trivial, fun _ => ⟨trivial, fun r => ⟨trivial, fun w => ?_⟩⟩⟩⟩
  change Unpublished (enqueueDecided msg w (q.decision r w msg.totalSize))
  cases q.decision r w msg.totalSize with
  | full => exact trivial
  -- payload, header, `write_ix`
  | inPlace => exact ⟨trivial, fun _ => ⟨trivial, fun _ => rfl⟩⟩
  -- the sentinel first
  | wrap => exact ⟨trivial, fun _ => ⟨trivial, fun _ => ⟨trivial, fun _ => rfl⟩⟩⟩

/-- The next step of an `enqueue` that has not published yet: it publishes, or it goes on. -/
theorem Unpublished.next {o : MemOp} {k : o.Ret → QProg Bool} (h : Unpublished (.step o k)) :
    ((∃ w, o = .store .writeIx w) ∧ ∀ r, k r = counting) ∨
      ((∀ p l, publishedBy p l o = l) ∧ ∀ r, Unpublished (k r)) := by
  cases o with
  | store c v =>
    cases c with
    | writeIx => exact .inl ⟨⟨v, rfl⟩, fun _ => h⟩
    | readIx => exact .inr ⟨fun _ _ => rfl, h.2⟩
    | msgCount => exact h.1.elim
  | _ => exact .inr ⟨fun _ _ => rfl, h.2⟩

/-- What comes before the publishing store leaves the counter alone. -/
theorem Unpublished.keepsCount {o : MemOp} {k : o.Ret → QProg Bool}
    (h : Unpublished (.step o k)) : o.KeepsCount := by
  cases o with
  | store c v =>
    cases c with
    | writeIx => exact trivial
    | readIx => exact trivial
    | msgCount => exact h.1.elim
  | _ => exact h.1

/-- `dequeue_begin` leaves the counter alone. -/
theorem keepsCount_dequeueBeginRound :
    dequeueBeginRound.All MemOp.KeepsCount fun _ => True := by
  rw [dequeueBeginRound_eq]
  refine ⟨trivial, fun r => ⟨trivial, fun w => ?_⟩⟩
  dsimp only
  split
  · exact trivial
  · -- the header; a sentinel moves the read index, which no one counts
    refine ⟨trivial, fun n => ?_⟩
    dsimp only
    split
    · exact ⟨trivial, fun _ => trivial⟩
    · exact trivial

/-! ### Where the parties stand -/

/-- What is left of the producer's call, as far as the counter is concerned. -/
def ProducerState.Counts : ProducerState → Prop
  | .idle => True
  | .enqueuing _ rest => Unpublished rest ∨ rest = counting

/-- What is left of the consumer's call, as far as the counter is concerned. -/
def ConsumerState.Counts : ConsumerState → Prop
  | .looking rest => rest.All MemOp.KeepsCount fun _ => True
  | .committing v rest => rest = SPSCQueue.dequeueCommit v ∨ rest = uncounting ∨ rest = .ret ()
  | _ => True

/-- The messages the producer has published and not counted: one between the two steps, else
none. -/
def ProducerState.uncounted : ProducerState → Nat
  | .enqueuing _ (.step (.fetchAdd .msgCount _) _) => 1
  | _ => 0

/-- The messages the consumer has committed and not uncounted. -/
def ConsumerState.unreduced : ConsumerState → Nat
  | .committing _ (.step (.fetchSub .msgCount _) _) => 1
  | _ => 0

/-- At most one message is published and not counted: the producer's latest. -/
theorem ProducerState.uncounted_le (s : ProducerState) : s.uncounted ≤ 1 := by
  unfold uncounted
  split <;> omega

/-- At most one message is committed and not uncounted: the consumer's latest. -/
theorem ConsumerState.unreduced_le (s : ConsumerState) : s.unreduced ≤ 1 := by
  unfold unreduced
  split <;> omega

/-- Before it has published, an `enqueue` has nothing to count. -/
theorem uncounted_of_unpublished {p : Payload} {rest : QProg Bool} (h : Unpublished rest) :
    (ProducerState.enqueuing p rest).uncounted = 0 := by
  cases rest with
  | ret ok => rfl
  | step o k =>
    cases o with
    -- the counter is touched behind the store only
    | fetchAdd c n =>
      cases c with
      | msgCount => exact h.1.elim
      | readIx => rfl
      | writeIx => rfl
    | _ => rfl

namespace Parties

/-- The number of messages in the queue: the `write_ix` stores of `enqueue`, less the `read_ix`
stores of `dequeue_commit`. -/
def messages (x : Parties) : Int := x.shared.published.length - x.shared.committed.length

/-- The producer is between two of its operations. -/
def ProducerIdle (x : Parties) : Prop := x.producer = .idle

/-- The consumer is between two of its operations. -/
def ConsumerIdle (x : Parties) : Prop := x.consumer = .idle ∨ ∃ v, x.consumer = .holding v

/-- No party is replaced. -/
def Lasting (_ : Parties) : Action → Prop
  | .replaceProducer _ => False
  | .replaceConsumer _ => False
  | _ => True

instance (x : Parties) : (a : Action) → Decidable (Lasting x a)
  | .replaceProducer _ | .replaceConsumer _ => isFalse id
  | .enqueue _ | .producerStep | .dequeueBegin | .dequeueCommit | .consumerStep => isTrue trivial

/-- The counter lags behind the indices by what the parties still have to do to it. -/
structure Counted (x : Parties) : Prop where
  producer : x.producer.Counts
  consumer : x.consumer.Counts
  count : (x.shared.storage.msgCount : Int) =
    (x.messages - x.producer.uncounted + x.consumer.unreduced) % 2 ^ 64

variable {len : Nat} {x y : Parties}

/-- A fresh queue counts no messages, and holds none. -/
theorem Counted.start {n : Nat} {raw : Mem} (q : SPSCQueue) :
    Counted (Parties.start (SPSCStorage.construct n raw) q) :=
  ⟨trivial, trivial, rfl⟩

/-- What a step that leaves the counter and the two lists alone keeps. -/
theorem Counted.of_same (h : Counted x) (hp : y.producer.Counts) (hc : y.consumer.Counts)
    (hcount : y.shared.storage.msgCount = x.shared.storage.msgCount)
    (hmsg : y.messages = x.messages) (hunc : y.producer.uncounted = x.producer.uncounted)
    (hunr : y.consumer.unreduced = x.consumer.unreduced) : Counted y := by
  refine ⟨hp, hc, ?_⟩
  rw [hcount, hmsg, hunc, hunr]
  exact h.count

/-- A step of `enqueue`: what it does to the storage, and to the list of published messages. -/
theorem produce_inv {p : Payload} {o : MemOp} {sh sh' : Shared} {r : o.Ret}
    (h : produce len p o sh = some (r, sh')) :
    sh'.storage = (effect o sh.storage).2 ∧ sh'.published = publishedBy p sh.published o ∧
      sh'.committed = sh.committed := by
  obtain ⟨z, he, heq⟩ := Option.map_eq_some_iff.mp h
  obtain ⟨rfl, rfl⟩ := Prod.mk.inj heq
  rw [eq_effect_of_exec he]
  exact ⟨rfl, rfl, rfl⟩

/-- A step of `dequeue_begin` does nothing to the two lists. -/
theorem look_inv {o : MemOp} {sh sh' : Shared} {r : o.Ret} (h : look len o sh = some (r, sh')) :
    sh'.storage = (effect o sh.storage).2 ∧ sh'.published = sh.published ∧
      sh'.committed = sh.committed := by
  obtain ⟨z, he, heq⟩ := Option.map_eq_some_iff.mp h
  obtain ⟨rfl, rfl⟩ := Prod.mk.inj heq
  rw [eq_effect_of_exec he]
  exact ⟨rfl, rfl, rfl⟩

/-- A step of `dequeue_commit`: what it does to the storage, and to the list of committed
messages. -/
theorem commit_inv {v : MessageView} {o : MemOp} {sh sh' : Shared} {r : o.Ret}
    (h : commit len v o sh = some (r, sh')) :
    sh'.storage = (effect o sh.storage).2 ∧ sh'.published = sh.published ∧
      sh'.committed = committedBy v sh.storage.buffer sh.committed o := by
  obtain ⟨z, he, heq⟩ := Option.map_eq_some_iff.mp h
  obtain ⟨rfl, rfl⟩ := Prod.mk.inj heq
  rw [eq_effect_of_exec he]
  exact ⟨rfl, rfl, rfl⟩

/-- A step of the producer inside `enqueue`. -/
theorem Counted.produceStep {sh sh' : Shared} {q : SPSCQueue} {p : Payload} {o : MemOp}
    {k : o.Ret → QProg Bool} {cs : ConsumerState} {r : o.Ret}
    (h : Counted ⟨sh, q, .enqueuing p (.step o k), cs⟩)
    (he : produce len p o sh = some (r, sh')) :
    Counted ⟨sh', q, .enqueuing p (k r), cs⟩ := by
  obtain ⟨hst, hpub, hcom⟩ := produce_inv he
  rcases h.producer with hun | hcounting
  · have hzero : (ProducerState.enqueuing p (.step o k)).uncounted = 0 :=
      uncounted_of_unpublished hun
    have hsame : sh'.storage.msgCount = sh.storage.msgCount := by
      rw [hst, msgCount_effect hun.keepsCount]
    rcases hun.next with ⟨⟨w, rfl⟩, hk⟩ | ⟨hpub', hk⟩
    · -- the `write_ix` store: one message more, and it is not counted yet
      refine ⟨.inr (hk r), h.consumer, ?_⟩
      have hlen : sh'.published.length = sh.published.length + 1 := by
        rw [hpub]
        exact List.length_append
      have hone : (ProducerState.enqueuing p (k r)).uncounted = 1 := by
        rw [hk r]
        rfl
      have hcount := h.count
      simp only [messages, hzero] at hcount
      simp only [messages, hsame, hlen, hcom, hone]
      omega
    · -- still before the store: neither the lists nor the counter have moved
      refine h.of_same (.inl (hk r)) h.consumer hsame ?_ ?_ rfl
      · simp only [messages, hpub, hpub', hcom]
      · rw [hzero]
        exact uncounted_of_unpublished (hk r)
  · -- the `fetch_add`
    obtain ⟨rfl, hk⟩ := Prog.step.inj hcounting
    obtain rfl := eq_of_heq hk
    refine ⟨.inl trivial, h.consumer, ?_⟩
    have hadd : sh'.storage.msgCount = addW sh.storage.msgCount 1 := by
      rw [hst]
      rfl
    have hlen : sh'.published.length = sh.published.length := by
      rw [hpub]
      rfl
    have hcount := h.count
    have hone : (ProducerState.enqueuing p
      (.step (.fetchAdd .msgCount 1) fun _ => .ret true)).uncounted = 1 := rfl
    have hzero : (ProducerState.enqueuing p (.ret true)).uncounted = 0 := rfl
    simp only [messages, hone] at hcount
    simp only [messages, hadd, hlen, hcom, hzero, addW]
    omega

/-- A step of the consumer inside `dequeue_commit`. -/
theorem Counted.commitStep {sh sh' : Shared} {q : SPSCQueue} {v : MessageView} {o : MemOp}
    {k : o.Ret → QProg Unit} {ps : ProducerState} {r : o.Ret}
    (h : Counted ⟨sh, q, ps, .committing v (.step o k)⟩)
    (he : commit len v o sh = some (r, sh')) :
    Counted ⟨sh', q, ps, .committing v (k r)⟩ := by
  obtain ⟨hst, hpub, hcom⟩ := commit_inv he
  have hcount := h.count
  rcases h.consumer with hrest | hrest | hrest
  · -- the `read_ix` store: one message less, and it is still counted
    unfold SPSCQueue.dequeueCommit QProg.store QProg.fetchSub at hrest
    simp only [Prog.step_bind, Prog.ret_bind] at hrest
    obtain ⟨rfl, hk⟩ := Prog.step.inj hrest
    obtain rfl := eq_of_heq hk
    refine ⟨h.producer, .inr (.inl rfl), ?_⟩
    have hsame : sh'.storage.msgCount = sh.storage.msgCount := by
      rw [hst]
      rfl
    have hlen : sh'.committed.length = sh.committed.length + 1 := by
      rw [hcom]
      exact List.length_append
    have hzero : (ConsumerState.committing v
      (.step (.store .readIx (nextIndex v.index v.totalSize)) fun _ =>
        .step (.fetchSub .msgCount 1) .ret)).unreduced = 0 := rfl
    have hone : (ConsumerState.committing v (.step (.fetchSub .msgCount 1) .ret)).unreduced = 1 :=
      rfl
    simp only [messages, hzero] at hcount
    simp only [messages, hsame, hpub, hlen, hone]
    omega
  · -- the `fetch_sub`
    obtain ⟨rfl, hk⟩ := Prog.step.inj hrest
    obtain rfl := eq_of_heq hk
    refine ⟨h.producer, .inr (.inr rfl), ?_⟩
    have hsub : sh'.storage.msgCount = subW sh.storage.msgCount 1 := by
      rw [hst]
      rfl
    have hlen : sh'.committed.length = sh.committed.length := by
      rw [hcom]
      rfl
    have hone : (ConsumerState.committing v (.step (.fetchSub .msgCount 1) .ret)).unreduced = 1 :=
      rfl
    have hzero : (ConsumerState.committing v (.ret ())).unreduced = 0 := rfl
    simp only [messages, hone] at hcount
    simp only [messages, hsub, hpub, hlen, hzero, subW]
    omega
  · exact absurd hrest (by simp)

/-- **Every action keeps the counter in step**, as long as no party is replaced. -/
theorem Counted.act (h : Counted x) {a : Action} (hl : Lasting x a)
    (hs : x.act len a = some y) : Counted y := by
  -- what is counted changes in the producer's and the consumer's own steps only
  obtain ⟨sh, q, ps, cs⟩ := x
  cases a with
  | enqueue p =>
    cases ps with
    | idle =>
      obtain rfl := Option.some.inj hs
      have hun := unpublished_enqueue q ⟨p⟩
      exact h.of_same (.inl hun) h.consumer rfl rfl (uncounted_of_unpublished hun) rfl
    | enqueuing p' rest => exact absurd hs (by simp [Parties.act])
  | producerStep =>
    cases ps with
    | idle => exact absurd hs (by simp [Parties.act, Parties.producerStep])
    | enqueuing p rest =>
      cases rest with
      -- the call returns
      | ret ok =>
        obtain rfl := Option.some.inj hs
        exact h.of_same trivial h.consumer rfl rfl rfl rfl
      | step o k =>
        obtain ⟨⟨r, sh'⟩, he, rfl⟩ := Option.map_eq_some_iff.mp hs
        exact h.produceStep he
  -- a producer that is replaced in between would never count its message
  | replaceProducer how => exact hl.elim
  | dequeueBegin =>
    cases cs with
    | idle =>
      obtain rfl := Option.some.inj hs
      exact h.of_same h.producer keepsCount_dequeueBeginRound rfl rfl rfl rfl
    | holding v =>
      obtain rfl := Option.some.inj hs
      exact h.of_same h.producer keepsCount_dequeueBeginRound rfl rfl rfl rfl
    | looking rest => exact absurd hs (by simp [Parties.act])
    | committing v rest => exact absurd hs (by simp [Parties.act])
  | dequeueCommit =>
    cases cs with
    | holding v =>
      obtain rfl := Option.some.inj hs
      exact h.of_same h.producer (.inl rfl) rfl rfl rfl rfl
    | idle => exact absurd hs (by simp [Parties.act])
    | looking rest => exact absurd hs (by simp [Parties.act])
    | committing v rest => exact absurd hs (by simp [Parties.act])
  | consumerStep =>
    cases cs with
    | idle => exact absurd hs (by simp [Parties.act, Parties.consumerStep])
    | holding v => exact absurd hs (by simp [Parties.act, Parties.consumerStep])
    | looking rest =>
      cases rest with
      | ret r =>
        cases r with
        -- the sentinel was passed: another round
        | none =>
          obtain rfl := Option.some.inj hs
          exact h.of_same h.producer keepsCount_dequeueBeginRound rfl rfl rfl rfl
        | some v =>
          obtain rfl := Option.some.inj hs
          cases hv : v.empty with
          | true => exact h.of_same h.producer trivial rfl rfl rfl rfl
          | false => exact h.of_same h.producer trivial rfl rfl rfl rfl
      | step o k =>
        obtain ⟨⟨r, sh'⟩, he, rfl⟩ := Option.map_eq_some_iff.mp hs
        obtain ⟨hst, hpub, hcom⟩ := look_inv he
        obtain ⟨hkeeps, hrest⟩ := h.consumer
        refine h.of_same h.producer (hrest r) ?_ ?_ rfl rfl
        · change sh'.storage.msgCount = sh.storage.msgCount
          rw [hst, msgCount_effect hkeeps]
        · simp only [messages, hpub, hcom]
    | committing v rest =>
      cases rest with
      | ret u =>
        obtain rfl := Option.some.inj hs
        exact h.of_same h.producer trivial rfl rfl rfl rfl
      | step o k =>
        obtain ⟨⟨r, sh'⟩, he, rfl⟩ := Option.map_eq_some_iff.mp hs
        exact h.commitStep he
  | replaceConsumer how => exact hl.elim

/-- **The counter is in step in every state reached**, as long as no party is replaced. -/
theorem Counted.reaches {P : Parties → Action → Prop} (hP : ∀ x a, P x a → Lasting x a)
    {acts : List Action} (h : Counted x) (hr : Reaches (Parties.step len) P x acts y) :
    Counted y := by
  refine hr.invariant (I := Counted) ?_ h
  intro z a u z' hz hl hstep
  obtain ⟨w, hact, hw⟩ := Option.map_eq_some_iff.mp hstep
  obtain ⟨-, rfl⟩ := Prod.mk.inj hw
  exact hz.act (hP z a hl) hact

/-! ### The bounds -/

/-- The documented bounds of `size()`: called by the consumer it returns at most the number of
messages in the queue, called by the producer at least that number. -/
def SizeBounds (len : Nat) (x : Parties) : Prop :=
  ∃ c, SPSCQueue.size.run (exec len) x.shared.storage = some (c, x.shared.storage) ∧
    (x.ConsumerIdle → (c : Int) ≤ x.messages) ∧ (x.ProducerIdle → x.messages ≤ c)

/-- The condition: called by the consumer, the messages that were counted are at least those that
were committed; called by the producer, the messages in the queue, and one that is not uncounted
yet, are fewer than `2 ^ 64`. -/
def CountsCover (x : Parties) : Prop :=
  (x.ConsumerIdle →
    x.shared.committed.length + x.producer.uncounted ≤ x.shared.published.length) ∧
  (x.ProducerIdle →
    x.shared.published.length + x.consumer.unreduced < x.shared.committed.length + 2 ^ 64)

/-- A consumer between two operations has uncounted what it has committed. -/
theorem ConsumerIdle.unreduced_eq (h : x.ConsumerIdle) : x.consumer.unreduced = 0 := by
  rcases h with hc | ⟨v, hc⟩
  · rw [hc]
    rfl
  · rw [hc]
    rfl

/-- A producer between two operations has counted what it has published. -/
theorem ProducerIdle.uncounted_eq (h : x.ProducerIdle) : x.producer.uncounted = 0 := by
  rw [show x.producer = .idle from h]
  rfl

/-- **The bounds hold exactly when the counts cover each other.** -/
theorem Counted.sizeBounds_iff (hlen : 256 ≤ len) (h : Counted x) :
    SizeBounds len x ↔ CountsCover x := by
  have hrun := Session.run_size hlen x.shared.storage
  have hcount := h.count
  have hunc := x.producer.uncounted_le
  have hunr := x.consumer.unreduced_le
  -- a party that calls `size()` has nothing left to do to the counter
  have hcons : x.ConsumerIdle → ((x.shared.storage.msgCount : Int) ≤ x.messages ↔
      x.shared.committed.length + x.producer.uncounted ≤ x.shared.published.length) := by
    intro hidle
    rw [hidle.unreduced_eq] at hcount
    unfold messages at hcount ⊢
    omega
  have hprod : x.ProducerIdle → (x.messages ≤ (x.shared.storage.msgCount : Int) ↔
      x.shared.published.length + x.consumer.unreduced <
        x.shared.committed.length + 2 ^ 64) := by
    intro hidle
    rw [hidle.uncounted_eq] at hcount
    unfold messages at hcount ⊢
    omega
  -- `size()` reads the counter and nothing else
  constructor
  · rintro ⟨c, hc, hlow, hhigh⟩
    obtain ⟨rfl, -⟩ := Prod.mk.inj (Option.some.inj (hc.symm.trans hrun))
    exact ⟨fun hidle => (hcons hidle).mp (hlow hidle),
      fun hidle => (hprod hidle).mp (hhigh hidle)⟩
  · rintro ⟨hlow, hhigh⟩
    exact ⟨_, hrun, fun hidle => (hcons hidle).mpr (hlow hidle),
      fun hidle => (hprod hidle).mpr (hhigh hidle)⟩

end Parties

open Parties

/-- **The bounds of `size()`.** On a fresh storage of an accepted size, after any interleaving of
the steps of one producer and one consumer, the documented bounds hold exactly if the counts cover
what was committed and are below `2 ^ 64`. -/
theorem size_bounds_iff {available : Nat → Bool} {raw : Mem} {n : Nat} {s : SPSCStorage}
    {q : SPSCQueue} (hs : SPSCStorage.create available raw n = .ok s)
    (hq : SPSCQueue.create s = .ok q) {acts : List Action} {x : Parties}
    (hr : Reaches (Parties.step n) Lasting (Parties.start s q) acts x) :
    SizeBounds n x ↔ CountsCover x := by
  obtain ⟨rfl, hlow, -⟩ := SPSCStorage.create_eq_ok hs
  have h₀ : Counted (Parties.start (SPSCStorage.construct n raw) q) := Counted.start q
  have h := h₀.reaches (fun _ _ => id) hr
  exact h.sizeBounds_iff (by omega)

/-- With messages of one footprint, the producer's bound always holds, and the consumer's bound
fails only while the producer has published the last message and not counted it and the consumer has
already committed it. -/
theorem size_bounds_uniform {available : Nat → Bool} {raw : Mem} {n : Nat} {s : SPSCStorage}
    {q : SPSCQueue} (hs : SPSCStorage.create available raw n = .ok s)
    (hq : SPSCQueue.create s = .ok q) {T : Nat} {acts : List Action} {x : Parties}
    (hr : Reaches (Parties.step n) (fun x a => Uniform T x a ∧ Lasting x a) (Parties.start s q)
      acts x) :
    SizeBounds n x ↔ ¬ (x.ConsumerIdle ∧ x.messages = 0 ∧ x.producer.uncounted = 1) := by
  obtain ⟨hfresh, hn, hsized⟩ := sized_of_create hs hq
  have hcounted : Counted x := by
    rw [hfresh] at hr
    exact (Counted.start q).reaches (fun _ _ => And.right) hr
  have hsafe : Safe (n - 256) T x := by
    rw [hn] at hr
    exact (Safe.start hfresh hn hsized).reaches (hr.mono fun _ _ => And.left)
  rw [hcounted.sizeBounds_iff (by omega)]
  -- what is published and not committed lies in the buffer
  obtain ⟨front, back, hL, hpub, -⟩ := hsafe.inv.contents
  have hlen := hL.length_lt
  have hlt := hsized.lt
  have hsum : x.shared.published.length =
      x.shared.committed.length + (front ++ back).length := by
    rw [hpub, List.length_append]
  have hunc := x.producer.uncounted_le
  have hunr := x.consumer.unreduced_le
  unfold CountsCover messages
  constructor
  · rintro ⟨hcons, -⟩ ⟨hidle, hzero, hone⟩
    have hle := hcons hidle
    omega
  · intro hno
    refine ⟨fun hidle => ?_, fun _ => by omega⟩
    -- all published messages but the last one are counted
    by_contra hle
    exact hno ⟨hidle, by omega, by omega⟩

/-- The producer stops between its store and the counter; the consumer reads the message and commits
it. -/
def outrunningRun : List Action :=
  .enqueue [1] :: List.replicate 7 .producerStep ++ .dequeueBegin ::
    List.replicate 4 .consumerStep ++ .dequeueCommit :: List.replicate 3 .consumerStep

/-- Before the commit, the bounds hold. -/
theorem size_bounds_iff_looking :
    ∃ x, Reaches (Parties.step 320) Lasting (Parties.start storage64 queue64)
      (outrunningRun.take 13) x ∧ SizeBounds 320 x := by
  obtain ⟨x, hx⟩ : ∃ x, follow (Parties.step 320) (Parties.start storage64 queue64)
      (outrunningRun.take 13) = some x :=
    Option.isSome_iff_exists.mp (by decide +kernel)
  have hr : Reaches (Parties.step 320) Lasting (Parties.start storage64 queue64)
      (outrunningRun.take 13) x :=
    .of_follow hx (by decide +kernel)
  have hobs : (follow (Parties.step 320) (Parties.start storage64 queue64)
      (outrunningRun.take 13)).map (fun z => (z.shared.committed.length,
        z.shared.published.length, z.producer.uncounted, z.consumer.unreduced)) =
      some (0, 1, 1, 0) := by
    decide +kernel
  -- at this point nothing has been committed, and both conditions hold
  rw [hx, Option.map_some, Option.some.injEq, Prod.mk.injEq, Prod.mk.injEq, Prod.mk.injEq] at hobs
  refine ⟨x, hr, (size_bounds_iff create_storage64 create_queue64 hr).mpr ⟨fun _ => ?_,
    fun _ => ?_⟩⟩
  · omega
  · omega

/-- **The counter is outrun.** The consumer has committed the only message, and `size()` returns
`2 ^ 64 - 1` to it. -/
theorem size_outrun :
    ¬ ∀ (available : Nat → Bool) (raw : Mem) (n : Nat) (s : SPSCStorage) (q : SPSCQueue),
      SPSCStorage.create available raw n = .ok s → SPSCQueue.create s = .ok q →
      ∀ acts x, Reaches (Parties.step n) Lasting (Parties.start s q) acts x →
        SizeBounds n x := by
  intro h
  obtain ⟨x, hx⟩ : ∃ x, follow (Parties.step 320) (Parties.start storage64 queue64)
      outrunningRun = some x :=
    Option.isSome_iff_exists.mp (by decide +kernel)
  have hr : Reaches (Parties.step 320) Lasting (Parties.start storage64 queue64)
      outrunningRun x :=
    .of_follow hx (by decide +kernel)
  have hobs : (follow (Parties.step 320) (Parties.start storage64 queue64) outrunningRun).map
      (fun z => (z.shared.storage.msgCount, z.shared.published.length,
        z.shared.committed.length, z.consumer matches .idle)) =
      some (2 ^ 64 - 1, 1, 1, true) := by
    decide +kernel
  -- the message is committed before it has been counted
  rw [hx, Option.map_some, Option.some.injEq, Prod.mk.injEq, Prod.mk.injEq, Prod.mk.injEq] at hobs
  obtain ⟨hcount, hpub, hcom, hidle⟩ := hobs
  have hcons : x.ConsumerIdle := by
    left
    split at hidle
    · next hc => exact hc
    · exact absurd hidle (by simp)
  -- called by the consumer then, `size` would have to be at most zero
  obtain ⟨c, hsize, hle, -⟩ := h _ _ 320 storage64 queue64 create_storage64 create_queue64 _ x hr
  obtain ⟨rfl, -⟩ := Prod.mk.inj (Option.some.inj
    (hsize.symm.trans (Session.run_size (by decide) x.shared.storage)))
  have hbound := hle hcons
  unfold messages at hbound
  omega

end PosixIpc
