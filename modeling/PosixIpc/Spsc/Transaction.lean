import PosixIpc.Spsc.Bounds

/-!
# Reading without a copy

A view returned by `dequeue_begin` points into the buffer, and the consumer reads through it until
its commit. Meanwhile the producer may go on with any number of messages, and the consumer may look
again. `Session.Holds` is what all of this keeps: the consumer holds the view, and the message it
shows is the first one of the layout.

The invariant covers every way `enqueue` can go, also the one in which unread messages are lost
(`Session.Overwrites`): what it replaces is `back`, and the message a view shows is in `front`.
-/

namespace PosixIpc

open Framework SPSCQueue SPSCStorage

namespace Session

variable {q : SPSCQueue} {B : Nat} {x y : Session} {p : Payload} {v : MessageView}

/-- The operations that may come between a view and its commit. -/
def Reading (q : SPSCQueue) : Op → Prop
  | .enqueue p => LegalPayload q p
  | .dequeueBegin => True
  | .dequeueCommit => False

instance (q : SPSCQueue) : (o : Op) → Decidable (Reading q o)
  | .enqueue p => inferInstanceAs (Decidable (LegalPayload q p))
  | .dequeueBegin => isTrue trivial
  | .dequeueCommit => isFalse id

/-- The consumer holds `v`, which shows the oldest message `p`. -/
structure Holds (B : Nat) (v : MessageView) (p : Payload) (x : Session) : Prop where
  inv : ∃ rest back, Inv B x (p :: rest) back
  view : x.view = some v
  shows : v = ⟨some (x.storage.readIx + 8), p.length, x.storage.readIx⟩

/-- An enqueue leaves the view and the message it shows alone. -/
theorem Holds.enqueue (hq : Sized q B) (h : Holds B v p x) {p' : Payload}
    (hp' : LegalPayload q p') :
    ∃ ok y, x.apply q (256 + B) (.enqueue p') = some (.enqueued ok, y) ∧ Holds B v p y := by
  obtain ⟨rest, back, hinv⟩ := h.inv
  rcases hinv.enqueue hq hp' with
    ⟨hfull, -⟩ | ⟨y, front', back', happly, hview, hread, -, hinv', hkeep, hover⟩
  · exact ⟨false, x, hfull, h⟩
  · have hv : y.view = some v := hview.trans h.view
    have hshows : v = ⟨some (y.storage.readIx + 8), p.length, y.storage.readIx⟩ := by
      rw [hread]
      exact h.shows
    -- the first message is the one it was, also if the others are replaced
    have hfirst : ∃ rest', front' = p :: rest' := by
      obtain ⟨p₁, rest₁, hf, -⟩ := hinv'.view v hv
      by_cases hov : Overwrites q x.storage p'
      · obtain ⟨-, hsame, -, -⟩ := hover hov
        exact ⟨rest, hsame⟩
      · have hcat := hkeep hov
        rw [hf, List.cons_append, List.cons_append, List.cons_append, List.cons.injEq] at hcat
        exact ⟨rest₁, by rw [hf, hcat.1]⟩
    obtain ⟨rest', rfl⟩ := hfirst
    exact ⟨true, y, happly, ⟨rest', back', hinv'⟩, hv, hshows⟩

/-- Looking again shows the same message, and nothing changes. -/
theorem Holds.dequeueBegin (hq : Sized q B) (h : Holds B v p x) :
    x.apply q (256 + B) .dequeueBegin = some (.viewed v, x) := by
  obtain ⟨rest, back, hinv⟩ := h.inv
  rw [hinv.dequeueBegin_message hq, ← h.shows, ← h.view]

/-- **What comes between a view and its commit** is answered, keeps the view, and shows no other
one. -/
theorem Holds.reading (hq : Sized q B) {o : Op} (ho : Reading q o) (h : Holds B v p x) :
    ∃ r y, x.apply q (256 + B) o = some (r, y) ∧ (∀ v', r = .viewed v' → v' = v) ∧
      Holds B v p y := by
  cases o with
  | enqueue p' =>
    obtain ⟨ok, y, happly, hy⟩ := h.enqueue hq ho
    exact ⟨_, y, happly, fun v' hv' => absurd hv' (by simp), hy⟩
  | dequeueBegin =>
    refine ⟨_, x, h.dequeueBegin hq, fun v' hv' => ?_, h⟩
    exact (Reply.viewed.inj hv').symm
  | dequeueCommit => exact ho.elim

/-- The bytes a held view shows. -/
theorem Holds.bytes (h : Holds B v p x) :
    x.storage.readIx = v.index ∧ x.storage.buffer.readWord v.index = v.size ∧
      x.storage.buffer.read (v.index + 8) v.size = p := by
  obtain ⟨rest, back, hinv⟩ := h.inv
  have hst := hinv.layout.stored
  rw [h.shows]
  exact ⟨rfl, hst.header, hst.bytes⟩

/-- A view that was just returned is held. -/
theorem Inv.holds {front back : List Payload} (hq : Sized q B) (h : Inv B x front back)
    (hb : x.apply q (256 + B) .dequeueBegin = some (.viewed v, y)) (hv : v.empty = false) :
    ∃ p, Holds B v p y := by
  rcases h.dequeueBegin hq with
    ⟨-, happly⟩ | ⟨p, rest, back', r', -, happly, -, -, hinv⟩
  · obtain ⟨hr, -⟩ := Prod.mk.inj (Option.some.inj (hb.symm.trans happly))
    obtain rfl := Reply.viewed.inj hr
    exact absurd hv (by decide)
  · obtain ⟨hr, rfl⟩ := Prod.mk.inj (Option.some.inj (hb.symm.trans happly))
    obtain rfl := Reply.viewed.inj hr
    exact ⟨p, ⟨rest, back', hinv⟩, rfl, rfl⟩

end Session

open Session

/-- **The read transaction.** In every session reached from a fresh storage of an accepted size by
legal operations, a view that `dequeue_begin` returns outlives any sequence of enqueues and further
looks: each of them is answered, each look returns that same view, the read index and the bytes of
the message are as they were, and the commit moves the read index past this message. -/
theorem read_transaction {available : Nat → Bool} {raw : Mem} {n : Nat} {s : SPSCStorage}
    {q : SPSCQueue} (hs : SPSCStorage.create available raw n = .ok s)
    (hq : SPSCQueue.create s = .ok q) {ops : List Op} {x y : Session} {v : MessageView}
    (hr : Reaches (apply q n) (Legal q) (start s) ops x)
    (hb : x.apply q n .dequeueBegin = some (.viewed v, y)) (hv : v.empty = false)
    {ops' : List Op} (hops' : ∀ o ∈ ops', Reading q o) :
    ∃ rs z, replies (apply q n) y ops' = some (rs, z) ∧ (∀ v', .viewed v' ∈ rs → v' = v) ∧
      z.storage.readIx = v.index ∧ z.storage.buffer.readWord v.index = v.size ∧
      z.storage.buffer.read (v.index + 8) v.size = y.storage.buffer.read (v.index + 8) v.size ∧
      ∃ s', (SPSCQueue.dequeueCommit v).run (exec n) z.storage = some ((), s') ∧
        s'.readIx = v.index + slot v.size := by
  obtain ⟨hfresh, hn, hsized⟩ := sized_of_create hs hq
  have hB := hsized.sixteen_le
  have h₀ : Inv (n - 256) (start s) [] [] := by
    rw [hfresh]
    exact Inv.start (by omega) raw
  rw [hn] at hr hb ⊢
  generalize n - 256 = B at *
  obtain ⟨front, back, hinv⟩ := h₀.reaches hsized hr
  obtain ⟨p, hy⟩ := hinv.holds hsized hb hv
  obtain ⟨rs, z, hrun, hrs, hz⟩ := replies_of_invariant ops'
    (fun o ho w hw => hw.reading hsized (hops' o ho)) hy
  obtain ⟨hread, hhead, hbytes⟩ := hz.bytes
  refine ⟨rs, z, hrun, fun v' hv' => hrs _ hv' v' rfl, hread, hhead, ?_, ?_⟩
  · rw [hbytes, hy.bytes.2.2]
  · -- the commit goes by the view, which agrees with the header
    obtain ⟨rest', back', hinv'⟩ := hz.inv
    obtain ⟨p', -, -, -, -, -, hsize, hend⟩ := hinv'.view_bytes hz.view
    have hlt := hsized.lt
    have hslot := lt_slot p'.length
    have hnext : nextIndex v.index v.totalSize = v.index + slot v.size :=
      nextIndex_slot (by rw [← hread]; exact hinv'.layout.read_mod) (by omega)
    exact ⟨_, run_dequeueCommit (by omega) v, hnext⟩

/-- A message that is accepted, one that is refused, and another look. -/
def heldRun : List Op :=
  [.enqueue (List.replicate 16 3), .enqueue (List.replicate 24 4), .dequeueBegin]

/-- The view is of a message that has wrapped, and the reader has just passed the sentinel. -/
theorem read_transaction_wrapping :
    ∃ x y v rs z, Reaches (apply queue64 320) (Legal queue64) (start storage64)
        (losingRun.take 7) x ∧
      x.apply queue64 320 .dequeueBegin = some (.viewed v, y) ∧ v.empty = false ∧
      replies (apply queue64 320) y heldRun = some (rs, z) ∧ z.storage.readIx = v.index := by
  obtain ⟨x, hx⟩ : ∃ x, follow (apply queue64 320) (start storage64) (losingRun.take 7) = some x :=
    Option.isSome_iff_exists.mp (by decide +kernel)
  have hr : Reaches (apply queue64 320) (Legal queue64) (start storage64) (losingRun.take 7) x :=
    .of_follow hx (by decide +kernel)
  have hlook : (follow (apply queue64 320) (start storage64) (losingRun.take 7)).bind (fun z =>
      (z.apply queue64 320 .dequeueBegin).map Prod.fst) =
        some (.viewed ⟨some 8, 24, 0⟩) := by
    decide +kernel
  rw [hx, Option.bind_some] at hlook
  obtain ⟨⟨r, y⟩, hb, hrv⟩ := Option.map_eq_some_iff.mp hlook
  obtain rfl : r = .viewed ⟨some 8, 24, 0⟩ := hrv
  -- all that the producer and the reader do meanwhile is legal while a message is being read
  have hheld : ∀ o ∈ heldRun, Reading queue64 o := by
    decide +kernel
  obtain ⟨rs, z, hrun, -, hread, -⟩ :=
    read_transaction create_storage64 create_queue64 hr hb rfl hheld
  exact ⟨x, y, _, rs, z, hr, hb, rfl, hrun, hread⟩

end PosixIpc
