import PosixIpc.Spsc.Drain

/-!
# What a fresh queue takes

`create` accepts every buffer of at least 16 bytes ("ensure can store at least 1 byte"), and
`calc_max_message_size` halves the buffer size, since "at least two messages must fit in buffer".
Neither follows. In a buffer of 16 bytes the largest payload is empty; and of two messages a fresh
queue takes the second one only if it ends strictly before the end of the buffer, since the start of
the buffer is where the reader stands. So two messages get in exactly if their footprints add up to
less than the buffer size (`Inv.acceptsBoth_iff`), and the footprints of two largest messages never
do.
-/

namespace PosixIpc

open Framework SPSCQueue SPSCStorage

namespace Session

variable {q : SPSCQueue} {B : Nat} {x : Session} {p p₁ p₂ : Payload}

/-- The queue takes `p₁` and then `p₂`, with no dequeue in between. -/
def AcceptsBoth (q : SPSCQueue) (len : Nat) (x : Session) (p₁ p₂ : Payload) : Prop :=
  ∃ y z, x.apply q len (.enqueue p₁) = some (.enqueued true, y) ∧
    y.apply q len (.enqueue p₂) = some (.enqueued true, z)

/-- What `create` promises of a queue: payloads of at least one byte, and room for any two of
them. -/
def TakesTwo (q : SPSCQueue) (len : Nat) (x : Session) : Prop :=
  1 ≤ q.maxPayloadSize ∧
    ∀ p₁ p₂, LegalPayload q p₁ → LegalPayload q p₂ → AcceptsBoth q len x p₁ p₂

/-- With the reader at the start of the buffer, a message is accepted exactly if it ends before the
end of the buffer. -/
theorem Inv.accepts_iff_of_read_zero {front back : List Payload} (hq : Sized q B)
    (h : Inv B x front back) (hp : LegalPayload q p) (hread : x.storage.readIx = 0) :
    Accepts q (256 + B) x p ↔ x.storage.writeIx + slot p.length < B := by
  have hslot := lt_slot p.length
  have hdec := hq.decision_eq hp (r := x.storage.readIx) h.layout.write_lt h.layout.write_mod
  constructor
  · rintro ⟨y, happly⟩
    by_contra hend
    -- the start of the buffer is where the reader is
    rw [if_neg hend, if_neg (by omega), if_pos (by omega)] at hdec
    have hlen : 256 ≤ 256 + B := by omega
    have hfull := apply_enqueue (run_enqueue_full hlen hp.1 hp.2 hdec)
    exact absurd (hfull.symm.trans happly) (by simp)
  · intro hend
    rw [if_pos hend, if_neg (by omega)] at hdec
    exact ⟨_, apply_enqueue (run_enqueue_inPlace hp.1 hp.2 hdec
      (by change 256 + x.storage.writeIx + 8 + p.length ≤ 256 + B; omega))⟩

/-- The first message leaves the reader at the start and the write index behind itself. -/
theorem Inv.enqueue_fresh (hq : Sized q B) (h : Inv B x [] []) (hp : LegalPayload q p)
    (hw : x.storage.writeIx = 0) {y : Session}
    (happly : x.apply q (256 + B) (.enqueue p) = some (.enqueued true, y)) :
    y.storage.readIx = 0 ∧ y.storage.writeIx = slot p.length ∧
      ∃ front back, Inv B y front back := by
  have hr : x.storage.readIx = 0 := (h.layout.eq_iff.mpr rfl).trans hw
  obtain ⟨front, back, hinv, -⟩ := h.step hq (o := .enqueue p) hp happly
  have hslot := lt_slot p.length
  have hfits := slot_lt_of_legal hq hp
  have hdec := hq.decision_eq hp (r := x.storage.readIx) h.layout.write_lt h.layout.write_mod
  -- a legal message always fits into an empty buffer that is read from its start
  rw [if_pos (by omega), if_neg (by omega)] at hdec
  have hput := apply_enqueue (run_enqueue_inPlace hp.1 hp.2 hdec
    (by change 256 + x.storage.writeIx + 8 + p.length ≤ 256 + B; omega))
  obtain ⟨-, rfl⟩ := Prod.mk.inj (Option.some.inj (happly.symm.trans hput))
  refine ⟨hr, ?_, front, back, hinv⟩
  change nextIndex x.storage.writeIx (Message.mk p).totalSize = slot p.length
  rw [hw, nextIndex_zero_totalSize hq hp]

/-- **Two messages in a fresh queue.** -/
theorem Inv.acceptsBoth_iff (hq : Sized q B) (h : Inv B x [] []) (hw : x.storage.writeIx = 0)
    (hp₁ : LegalPayload q p₁) (hp₂ : LegalPayload q p₂) :
    AcceptsBoth q (256 + B) x p₁ p₂ ↔ slot p₁.length + slot p₂.length < B := by
  have hr : x.storage.readIx = 0 := (h.layout.eq_iff.mpr rfl).trans hw
  have hfits := slot_lt_of_legal hq hp₁
  constructor
  · -- once the first message is in, the second one is accepted as its slot ends before the end
    rintro ⟨y, z, hy, hz⟩
    obtain ⟨hry, hwy, front, back, hinv⟩ := h.enqueue_fresh hq hp₁ hw hy
    have hroom := (hinv.accepts_iff_of_read_zero hq hp₂ hry).mp ⟨z, hz⟩
    rw [hwy] at hroom
    exact hroom
  · -- the first message alone takes no more than both
    intro hroom
    obtain ⟨y, hy⟩ := (h.accepts_iff_of_read_zero hq hp₁ hr).mpr (by omega)
    obtain ⟨hry, hwy, front, back, hinv⟩ := h.enqueue_fresh hq hp₁ hw hy
    obtain ⟨z, hz⟩ := (hinv.accepts_iff_of_read_zero hq hp₂ hry).mpr (by omega)
    exact ⟨y, z, hy, hz⟩

/-- **No queue takes its largest message twice.** -/
theorem Inv.not_takesTwo (hq : Sized q B) (h : Inv B x [] []) (hw : x.storage.writeIx = 0) :
    ¬ TakesTwo q (256 + B) x := by
  rintro ⟨hmax, hall⟩
  have hlen : (List.replicate q.maxPayloadSize (0 : UInt8)).length = q.maxPayloadSize :=
    List.length_replicate
  have hp : LegalPayload q (List.replicate q.maxPayloadSize 0) := by
    unfold LegalPayload
    rw [hlen]
    exact ⟨hmax, le_refl _⟩
  have hboth := (h.acceptsBoth_iff hq hw hp hp).mp (hall _ _ hp hp)
  refine not_fitsTwice_max hq hp hlen ?_
  rw [fitsTwice_iff hq hp]
  omega

end Session

open Session

/-- **Capacity.** For every storage `SPSCQueue::create` accepts: a payload of one byte is legal
exactly if the buffer has at least 24 bytes; a fresh queue takes two legal messages, one after the
other, exactly if their footprints add up to less than the buffer size; and so there is no storage
on which it takes any two legal messages. -/
theorem capacity_iff {available : Nat → Bool} {raw : Mem} {n : Nat} {s : SPSCStorage}
    {q : SPSCQueue} (hs : SPSCStorage.create available raw n = .ok s)
    (hq : SPSCQueue.create s = .ok q) :
    (1 ≤ q.maxPayloadSize ↔ 24 ≤ q.bufferSize) ∧
      (∀ p₁ p₂, LegalPayload q p₁ → LegalPayload q p₂ →
        (AcceptsBoth q n (start s) p₁ p₂ ↔
          nextIndex 0 (Message.mk p₁).totalSize + nextIndex 0 (Message.mk p₂).totalSize <
            q.bufferSize)) ∧
      ¬ TakesTwo q n (start s) := by
  obtain ⟨hfresh, hn, hsized⟩ := sized_of_create hs hq
  have hB := hsized.sixteen_le
  have h8 := hsized.mod_eight
  have h₀ : Inv (n - 256) (start s) [] [] := by
    rw [hfresh]
    exact Inv.start (by omega) raw
  have hzero : (start s).storage.writeIx = 0 := by rw [hfresh]; rfl
  rw [hn]
  -- what is left is about the buffer's size
  generalize n - 256 = B at *
  refine ⟨?_, fun p₁ p₂ hp₁ hp₂ => ?_, h₀.not_takesTwo hsized hzero⟩
  · rw [hsized.maxPayloadSize_eq, hsized.bufferSize_eq]
    omega
  · rw [nextIndex_zero_totalSize hsized hp₁, nextIndex_zero_totalSize hsized hp₂,
      hsized.bufferSize_eq]
    exact h₀.acceptsBoth_iff hsized hzero hp₁ hp₂

/-- On a buffer of 64 bytes: two messages of 16 bytes. -/
theorem capacity_iff_sixteen :
    AcceptsBoth queue64 320 (start storage64) (List.replicate 16 1) (List.replicate 16 2) :=
  ((capacity_iff create_storage64 create_queue64).2.1 _ _ (by decide +kernel)
    (by decide +kernel)).mpr (by decide +kernel)

/-- A storage of 272 bytes, with a buffer of 16, is accepted, and no payload is legal. -/
theorem capacity_fails :
    ¬ ∀ (available : Nat → Bool) (raw : Mem) (n : Nat) (s : SPSCStorage) (q : SPSCQueue),
      SPSCStorage.create available raw n = .ok s → SPSCQueue.create s = .ok q →
      TakesTwo q n (start s) := by
  intro h
  have hs : SPSCStorage.create (fun _ => true) (fun _ => 0) 272 =
      .ok (SPSCStorage.construct 272 fun _ => 0) :=
    SPSCStorage.create_of_available _ (by decide) (by decide) rfl
  have hq : SPSCQueue.create (SPSCStorage.construct 272 fun _ => 0) =
      .ok (SPSCQueue.construct (SPSCStorage.construct 272 fun _ => 0)) :=
    (SPSCQueue.create_eq_ok_iff (n := 272) rfl (by decide) (by decide)).mpr
      ⟨rfl, by decide, by decide⟩
  exact absurd (h _ _ 272 _ _ hs hq).1 (by decide +kernel)

end PosixIpc
