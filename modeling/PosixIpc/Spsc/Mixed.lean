import PosixIpc.Spsc.Interference

/-!
# Messages of all sizes under interference

What each party may count on while the other one takes steps, for messages whose sizes vary freely.
Without a common footprint nothing rules out that `enqueue` decides to wrap while the write index is
behind the read index (`Session.Overwrites`). The one assumption here is that it does not: at the
moment the producer loads the read index, the message it is about to enqueue would not overwrite.

After that load the producer works with a read index that may be out of date. It does not matter,
because what the decision was taken on stays true while the reader moves on: `Decided` is an
assertion about the read index as it is, not as it was loaded, and every step of the consumer keeps
it (`Decided.stable`). The bytes the producer writes to are free under it.

`ByConsumer` and `ByProducer` are what one party relies on and the other one respects.
`decided_sustained` is the part of `enqueue` behind the load, `round_sustained` a round of
`dequeue_begin`. The latter says what the round may return in terms of what was there to read at its
start: with something unread it does not answer that the queue is empty, and with a message at the
reader it does not go round again.
-/

namespace PosixIpc

open Framework SPSCQueue SPSCStorage Session

namespace Mixed

open Shared (produce look commit Free produce_eq look_eq commit_eq look_memcpySizeFrom)

/-! ### The invariant -/

/-- The messages published and not committed lie in the buffer, and the header is the one of a
storage of `256 + B` bytes. -/
structure Inv (B : Nat) (x : Shared) : Prop where
  magic : x.storage.magic = spscMagic
  abiVersion : x.storage.abiVersion = spscAbiVersion
  storageSize : x.storage.storageSize = 256 + B
  contents : ∃ front back,
    Layout B x.storage.buffer x.storage.readIx x.storage.writeIx front back ∧
      x.published = x.committed ++ (front ++ back)

/-- What a step of the consumer may do. -/
structure ByConsumer (B : Nat) (a b : Shared) : Prop where
  inv : Inv B a → Inv B b
  write : b.storage.writeIx = a.storage.writeIx
  buffer : b.storage.buffer = a.storage.buffer
  behind : a.storage.readIx ≤ a.storage.writeIx →
    a.storage.readIx ≤ b.storage.readIx ∧ b.storage.readIx ≤ a.storage.writeIx
  ahead : a.storage.writeIx < b.storage.readIx →
    a.storage.writeIx < a.storage.readIx ∧ a.storage.readIx ≤ b.storage.readIx

/-- What a step of the producer may do. -/
structure ByProducer (B : Nat) (a b : Shared) : Prop where
  inv : Inv B a → Inv B b
  read : b.storage.readIx = a.storage.readIx
  unread : Inv B a → a.storage.readIx ≠ a.storage.writeIx →
    b.storage.readIx ≠ b.storage.writeIx ∧
      b.storage.buffer.readWord a.storage.readIx = a.storage.buffer.readWord a.storage.readIx

variable {B : Nat} {a b c x : Shared} {p : Payload}

theorem ByConsumer.refl (a : Shared) : ByConsumer B a a :=
  ⟨id, rfl, rfl, fun h => ⟨le_refl _, h⟩, fun h => ⟨h, le_refl _⟩⟩

theorem ByConsumer.trans (h : ByConsumer B a b) (h' : ByConsumer B b c) : ByConsumer B a c := by
  refine ⟨h'.inv ∘ h.inv, h'.write.trans h.write, h'.buffer.trans h.buffer, fun hle => ?_,
    fun hlt => ?_⟩
  · obtain ⟨h₁, h₂⟩ := h.behind hle
    obtain ⟨h₃, h₄⟩ := h'.behind (by rw [h.write]; exact h₂)
    rw [h.write] at h₄
    exact ⟨h₁.trans h₃, h₄⟩
  · obtain ⟨h₁, h₂⟩ := h'.ahead (by rw [h.write]; exact hlt)
    rw [h.write] at h₁
    obtain ⟨h₃, h₄⟩ := h.ahead h₁
    exact ⟨h₃, h₄.trans h₂⟩

theorem ByProducer.refl (a : Shared) : ByProducer B a a :=
  ⟨id, rfl, fun _ h => ⟨h, rfl⟩⟩

theorem ByProducer.trans (h : ByProducer B a b) (h' : ByProducer B b c) : ByProducer B a c := by
  refine ⟨h'.inv ∘ h.inv, h'.read.trans h.read, fun hinv hne => ?_⟩
  obtain ⟨h₁, h₂⟩ := h.unread hinv hne
  obtain ⟨h₃, h₄⟩ := h'.unread (h.inv hinv) h₁
  rw [h.read] at h₄
  exact ⟨h₃, h₄.trans h₂⟩

/-- The counter is nobody's concern. -/
theorem Inv.of_counter (h : Inv B x) (k : Nat) :
    Inv B { x with storage := { x.storage with msgCount := k } } :=
  ⟨h.magic, h.abiVersion, h.storageSize, h.contents⟩

/-- There is something to read exactly if something is published and not committed. -/
theorem Inv.ne_iff (h : Inv B x) :
    x.storage.readIx ≠ x.storage.writeIx ↔ x.committed ≠ x.published := by
  obtain ⟨front, back, hL, hpub⟩ := h.contents
  rw [Ne, hL.eq_iff, Ne, hpub]
  refine not_congr ⟨fun hnil => ?_, fun heq => ?_⟩
  · rw [hnil, List.append_nil]
  · exact List.append_right_eq_self.mp heq.symm

/-! ### Writes of the producer -/

/-- **A write to free bytes is in order.** -/
theorem byProducer_write (hB : B % 8 = 0) {dst : Nat} {l : List UInt8}
    (hfree : Free x.storage dst l.length) :
    ByProducer B x
      { x with storage := { x.storage with buffer := x.storage.buffer.write dst l } } := by
  refine ⟨fun h => ?_, rfl, fun h hne => ⟨hne, ?_⟩⟩
  · -- the unread bytes are the same
    obtain ⟨front, back, hL, hpub⟩ := h.contents
    refine ⟨h.magic, h.abiVersion, h.storageSize, front, back,
      hL.of_agree hB (fun hrw => ?_) (fun hwr => ?_), hpub⟩
    · exact Mem.agree_write ((hfree.flat hrw).symm)
    · obtain ⟨h₁, h₂⟩ := hfree.wrapped hwr
      exact ⟨Mem.agree_write (.inr h₂), Mem.agree_write (.inl h₁)⟩
  · -- and with them the header the reader stands at
    obtain ⟨front, back, hL, -⟩ := h.contents
    have hr8 := hL.read_mod
    have hw8 := hL.write_mod
    refine (Mem.Agree.readWord (a := x.storage.readIx) (b := x.storage.readIx + 8) ?_
      (le_refl _) (le_refl _)).symm
    rcases Nat.lt_or_ge x.storage.writeIx x.storage.readIx with hwr | hrw
    · exact Mem.agree_write (.inr (hfree.wrapped hwr).2)
    · rcases hfree.flat hrw with h₁ | h₁
      · exact Mem.agree_write (.inr h₁)
      · exact Mem.agree_write (.inl (by omega))

/-- **Publishing** a message, when the buffer holds it behind the unread ones at the new index. -/
theorem byProducer_publish {w' : Nat} (hlay : ∀ front back,
      Layout B x.storage.buffer x.storage.readIx x.storage.writeIx front back →
      ∃ front' back', Layout B x.storage.buffer x.storage.readIx w' front' back' ∧
        front' ++ back' = front ++ back ++ [p]) :
    ByProducer B x { x with storage := { x.storage with writeIx := w' },
                            published := x.published ++ [p] } := by
  refine ⟨fun h => ?_, rfl, fun h hne => ⟨?_, rfl⟩⟩
  · -- the unread messages are those there were, and the new one behind them
    obtain ⟨front, back, hL, hpub⟩ := h.contents
    obtain ⟨front', back', hL', hcat⟩ := hlay front back hL
    refine ⟨h.magic, h.abiVersion, h.storageSize, front', back', hL', ?_⟩
    rw [hcat, hpub, List.append_assoc]
  · -- with one more message the queue is not empty
    obtain ⟨front, back, hL, -⟩ := h.contents
    obtain ⟨front', back', hL', hcat⟩ := hlay front back hL
    change x.storage.readIx ≠ w'
    rw [Ne, hL'.eq_iff, hcat]
    simp

/-! ### The decision of the producer -/

/-- What the decision of `enqueue` for a slot of `n` bytes at the write index `w` promises about the
read index. -/
def Room (n w : Nat) (s : SPSCStorage) : Decision → Prop
  | .full => True
  | .inPlace => w < s.readIx → w + n < s.readIx
  | .wrap => s.readIx ≤ w ∧ n < s.readIx

/-- The producer has decided where to put its message. -/
structure Decided (B n w : Nat) (d : Decision) (x : Shared) : Prop where
  inv : Inv B x
  write : x.storage.writeIx = w
  room : Room n w x.storage d

variable {n w : Nat} {d : Decision}

/-- **The reader only makes room.** -/
theorem Decided.stable (h : Decided B n w d a) (hab : ByConsumer B a b) : Decided B n w d b := by
  have hw := h.write
  refine ⟨hab.inv h.inv, hab.write.trans hw, ?_⟩
  have hroom := h.room
  cases d with
  | full => exact trivial
  | inPlace =>
    intro hlt
    obtain ⟨h₁, h₂⟩ := hab.ahead (by omega)
    exact lt_of_lt_of_le (hroom (by omega)) h₂
  | wrap =>
    obtain ⟨hle, hn⟩ := hroom
    obtain ⟨h₁, h₂⟩ := hab.behind (by omega)
    exact ⟨by omega, by omega⟩

/-- A step of the producer that leaves the write index alone. -/
theorem Decided.of_byProducer (h : Decided B n w d a) (hab : ByProducer B a b)
    (hw : b.storage.writeIx = a.storage.writeIx) : Decided B n w d b := by
  refine ⟨hab.inv h.inv, hw.trans h.write, ?_⟩
  have hroom := h.room
  cases d with
  | full => exact trivial
  | inPlace =>
    change w < b.storage.readIx → w + n < b.storage.readIx
    rw [hab.read]
    exact hroom
  | wrap =>
    change b.storage.readIx ≤ w ∧ n < b.storage.readIx
    rw [hab.read]
    exact hroom

/-- The slot at the write index is free. -/
theorem Decided.free_inPlace {dst k : Nat} (h : Decided B n w .inPlace x) (hlow : w ≤ dst)
    (hhigh : dst + k ≤ w + n) : Free x.storage dst k := by
  have hw := h.write
  refine ⟨fun _ => .inr (by omega), fun hwr => ⟨by omega, ?_⟩⟩
  have hroom := h.room (by omega)
  omega

/-- The slot at the start is free. -/
theorem Decided.free_start {dst k : Nat} (h : Decided B n w .wrap x) (hhigh : dst + k ≤ n) :
    Free x.storage dst k := by
  have hw := h.write
  obtain ⟨hle, hn⟩ := h.room
  exact ⟨fun _ => .inl (by omega), fun hwr => absurd hwr (by omega)⟩

/-- The bytes of the sentinel are free. -/
theorem Decided.free_sentinel (h : Decided B n w .wrap x) : Free x.storage w 8 := by
  have hw := h.write
  obtain ⟨hle, -⟩ := h.room
  exact ⟨fun _ => .inr (by omega), fun hwr => absurd hwr (by omega)⟩

/-- **At the load of the read index** the decision is what it promises, unless the message would
overwrite. -/
theorem Inv.decided {q : SPSCQueue} (h : Inv B x) (hq : Sized q B) (hp : LegalPayload q p)
    (hno : ¬ Overwrites q x.storage p) :
    Decided B (slot p.length) x.storage.writeIx
      (q.decision x.storage.readIx x.storage.writeIx (Message.mk p).totalSize) x := by
  refine ⟨h, rfl, ?_⟩
  obtain ⟨front, back, hL, -⟩ := h.contents
  have hw := hL.write_lt
  have hw8 := hL.write_mod
  have hlt := hq.lt
  have hle := hp.length_le hq
  rw [hq.decision_eq hp hw hw8]
  -- the arithmetic of `Overwrites` on a legal payload
  unfold Overwrites at hno
  rw [Message.totalSize_mk, nextIndex_slot hw8 (by omega), nextIndex_slot (i := 0) rfl (by omega),
    Nat.zero_add, addW_eq (by omega), hq.bufferSize_eq] at hno
  by_cases hend : x.storage.writeIx + slot p.length < B
  · rw [if_pos hend]
    split
    · exact trivial
    · next hclear =>
      intro hwr
      by_contra hge
      exact hclear ⟨hwr, by omega⟩
  · rw [if_neg hend]
    split
    · exact trivial
    · next hsentinel =>
      split
      · exact trivial
      · next hstart =>
        refine ⟨?_, by omega⟩
        by_contra hwr
        exact hno ⟨by omega, by omega, by omega, by omega⟩

/-! ### The producer's program -/

/-- What is left of an `enqueue` of `p` can be carried on whatever the consumer does. -/
abbrev Produces (B : Nat) (p : Payload) : QProg Bool → Shared → Prop :=
  Sustains (produce (256 + B) p) (ByConsumer B) (ByProducer B) fun _ _ => True

/-- The end of `enqueue`: the message becomes visible, then it is counted. -/
theorem produces_publishAt {A : Shared → Prop} (hA : ∀ a b, A a → ByConsumer B a b → A b)
    {w' : Nat} (hx : A x)
    (hpub : ∀ t, A t → Inv B t ∧ ByProducer B t
      { t with storage := { t.storage with writeIx := w' }, published := t.published ++ [p] }) :
    Produces B p (publishAt w') x := by
  have hw : (MemOp.store .writeIx w').InBounds (256 + B) := by
    change 128 + 8 ≤ 256 + B
    omega
  have hc : (MemOp.fetchAdd .msgCount 1).InBounds (256 + B) := by
    change 192 + 8 ≤ 256 + B
    omega
  refine Sustains.of_step hA hx fun t ht => ?_
  obtain ⟨hinv, hby⟩ := hpub t ht
  refine ⟨(), _, produce_eq hw (by simp) p, hby, ?_⟩
  -- the counter takes no part in what the consumer relies on
  refine Sustains.of_step (A := Inv B) (fun _ _ h hab => hab.inv h) (hby.inv hinv)
    fun u hu => ⟨(), _, produce_eq hc (by simp) p, ?_, fun _ _ => trivial⟩
  exact ⟨fun h => h.of_counter _, rfl, fun _ hne => ⟨hne, rfl⟩⟩

/-- The message has been copied to offset `i`. -/
def Written (B n w i : Nat) (d : Decision) (p : Payload) (x : Shared) : Prop :=
  Decided B n w d x ∧ Stored x.storage.buffer i p

/-- A message that is written and not published yet is out of the consumer's reach. -/
theorem Written.stable {i : Nat} (h : Written B n w i d p a) (hab : ByConsumer B a b) :
    Written B n w i d p b :=
  ⟨h.1.stable hab, by rw [hab.buffer]; exact h.2⟩

/-- A write of the producer to bytes that its decision has found free. -/
theorem produces_write {A : Shared → Prop} (hB : B % 8 = 0)
    (hA : ∀ a b, A a → ByConsumer B a b → A b) {o : MemOp} {dst : Nat} {src : List UInt8}
    {k : o.Ret → QProg Bool} {r : o.Ret} (hb : o.InBounds (256 + B)) (ho : o ≠ .assert false)
    (heff : ∀ s, effect o s = (r, { s with buffer := s.buffer.write dst src }))
    (hlist : ∀ l, Shared.publishedBy p l o = l) (hx : A x)
    (hfree : ∀ t, A t → Free t.storage dst src.length)
    (hk : ∀ t, A t → ByProducer B t
        { t with storage := { t.storage with buffer := t.storage.buffer.write dst src } } →
      Produces B p (k r)
        { t with storage := { t.storage with buffer := t.storage.buffer.write dst src } }) :
    Produces B p (.step o k) x := by
  refine Sustains.of_step hA hx fun t ht => ?_
  have hby := byProducer_write (x := t) hB (hfree t ht)
  refine ⟨r, _, ?_, hby, hk t ht hby⟩
  rw [produce_eq hb ho, heff, hlist]

/-- Payload and header are copied into a free slot. -/
theorem produces_message (hB : B % 8 = 0) (hlt : B < 2 ^ 63) (hpos : 1 ≤ p.length) {i : Nat}
    (hend : i + slot p.length ≤ B)
    (hfree : ∀ t dst k, Decided B n w d t → i ≤ dst → dst + k ≤ i + slot p.length →
      Free t.storage dst k)
    {k : Unit → QProg Bool} (hx : Decided B n w d x)
    (hk : ∀ t, Written B n w i d p t → Produces B p (k ()) t) :
    Produces B p
      (.step (.memcpyTo (i + 8) p) fun _ => .step (.memcpyTo i (toLE 8 p.length)) k) x := by
  have hslot := lt_slot p.length
  have hhead : (toLE 8 p.length).length = 8 := length_toLE 8 p.length
  have hb : (MemOp.memcpyTo (i + 8) p).InBounds (256 + B) := by
    change 256 + (i + 8) + p.length ≤ 256 + B
    omega
  have hb' : (MemOp.memcpyTo i (toLE 8 p.length)).InBounds (256 + B) := by
    change 256 + i + (toLE 8 p.length).length ≤ 256 + B
    omega
  refine produces_write hB (fun _ _ h hab => h.stable hab) hb (by simp) (fun _ => rfl)
    (fun _ => rfl) hx (fun t ht => hfree t _ _ ht (by omega) (by omega)) fun t ht hby => ?_
  -- between the two copies the payload is in place, and the consumer does not write
  refine produces_write
    (A := fun u => Decided B n w d u ∧ u.storage.buffer.read (i + 8) p.length = p) hB
    (fun _ _ h hab => ⟨h.1.stable hab, by rw [hab.buffer]; exact h.2⟩) hb' (by simp)
    (fun _ => rfl) (fun _ => rfl) ⟨ht.of_byProducer hby rfl, Mem.read_write_same _ _ _⟩
    (fun u hu => hfree u _ _ hu.1 (le_refl i) (by omega)) fun u hu hby' =>
    hk _ ⟨hu.1.of_byProducer hby' rfl, hpos, ?_, ?_⟩
  · exact Mem.readWord_write_toLE _ _ (by omega)
  · exact (Mem.read_write_of_disjoint (by omega)).trans hu.2

/-- **`enqueue` in place.** -/
theorem produces_inPlace (hB : B % 8 = 0) (hlt : B < 2 ^ 63) (hpos : 1 ≤ p.length)
    (hx : Decided B (slot p.length) w .inPlace x) (hend : w + slot p.length < B)
    (hnext : nextIndex w (Message.mk p).totalSize = w + slot p.length) :
    Produces B p (enqueueDecided ⟨p⟩ w .inPlace) x := by
  unfold enqueueDecided QProg.memcpyTo
  simp only [Prog.step_bind, Prog.ret_bind]
  rw [hnext]
  refine produces_message hB hlt hpos (by omega)
    (fun t dst k ht hlow hhigh => ht.free_inPlace hlow hhigh) hx fun t ht => ?_
  -- the store of the write index is the one step that changes the contents
  refine produces_publishAt (fun _ _ h hab => h.stable hab) ht fun u hu =>
    ⟨hu.1.inv, byProducer_publish fun front back hL => ?_⟩
  rw [hu.1.write] at hL
  obtain ⟨front', back', hL', -, hcat⟩ := hL.append hu.2 hend hu.1.room
  exact ⟨front', back', hL', hcat⟩

/-- **`enqueue` with a wrap.** -/
theorem produces_wrap (hB : B % 8 = 0) (hlt : B < 2 ^ 63) (hpos : 1 ≤ p.length)
    (hx : Decided B (slot p.length) w .wrap x) (hw8 : w + 8 ≤ B)
    (hnext : nextIndex 0 (Message.mk p).totalSize = slot p.length) :
    Produces B p (enqueueDecided ⟨p⟩ w .wrap) x := by
  obtain ⟨hrw, hroom⟩ := hx.room
  unfold enqueueDecided QProg.memcpyTo QProg.memset
  simp only [Prog.step_bind, Prog.ret_bind]
  rw [hnext]
  refine produces_message (i := 0) hB hlt hpos (by omega)
    (fun t dst k ht _ hhigh => ht.free_start (by omega)) hx fun t ht => ?_
  -- the sentinel
  have hb : (MemOp.memset w 0 8).InBounds (256 + B) := by
    change 256 + w + 8 ≤ 256 + B
    omega
  refine produces_write (A := Written B (slot p.length) w 0 .wrap p) hB
    (fun _ _ h hab => h.stable hab) hb (by simp) (fun _ => rfl) (fun _ => rfl) ht
    (fun u hu => by rw [List.length_replicate]; exact hu.1.free_sentinel) fun u hu hby => ?_
  -- the message ends before the sentinel begins
  have hstored : Stored (u.storage.buffer.write w (List.replicate 8 0)) 0 p := by
    obtain ⟨h₁, h₂⟩ := hu.1.room
    exact hu.2.of_agree (Mem.agree_write (.inl (by omega)))
  refine produces_publishAt
    (A := fun t => Written B (slot p.length) w 0 .wrap p t ∧ t.storage.buffer.readWord w = 0)
    (fun _ _ h hab => ⟨h.1.stable hab, by rw [hab.buffer]; exact h.2⟩)
    ⟨⟨hu.1.of_byProducer hby rfl, hstored⟩, Mem.readWord_write_zero _ _⟩
    fun t' ht' => ⟨ht'.1.1.inv, byProducer_publish fun front back hL => ?_⟩
  -- at the store the layout is still flat, and the sentinel ends it
  have hw := ht'.1.1.write
  obtain ⟨hle, hn⟩ := ht'.1.1.room
  have hL' := hL.wrap (by omega) ht'.1.2 (by rw [hw]; exact ht'.2) (by omega)
  have hback : back = [] := hL.back_eq_nil_iff.mpr (by omega)
  exact ⟨front, [p], hL', by rw [hback, List.append_nil]⟩

/-- **`enqueue` behind the load of the read index**, under interference. -/
theorem decided_sustained {q : SPSCQueue} (hq : Sized q B) (hp : LegalPayload q p) {r : Nat}
    (hx : Decided B (slot p.length) w (q.decision r w (Message.mk p).totalSize) x) :
    Produces B p (.step (.load .writeIx) fun writeIx =>
      enqueueDecided ⟨p⟩ writeIx (q.decision r writeIx (Message.mk p).totalSize)) x := by
  have hw : (MemOp.load .writeIx).InBounds (256 + B) := by
    change 128 + 8 ≤ 256 + B
    omega
  have hlt := hq.lt
  have hB := hq.mod_eight
  have hslot := slot_lt_of_legal hq hp
  have hle := hp.length_le hq
  -- the write index is the producer's own
  refine Sustains.of_step (fun _ _ h hab => h.stable hab) hx fun t ht =>
    ⟨t.storage.writeIx, t, produce_eq hw (by simp) p, .refl _, ?_⟩
  obtain ⟨front, back, hL, -⟩ := ht.inv.contents
  have hwB := hL.write_lt
  have hw8 := hL.write_mod
  rw [ht.write] at hwB hw8 ⊢
  have hdec := hq.decision_eq hp (r := r) hwB hw8
  generalize q.decision r w (Message.mk p).totalSize = d at ht hdec ⊢
  cases d with
  | full => exact fun _ _ => trivial
  | inPlace =>
    refine produces_inPlace hB hlt hp.1 ht ?_ ?_
    · by_contra hend
      rw [if_neg hend] at hdec
      split at hdec
      · exact absurd hdec (by simp)
      · split at hdec <;> exact absurd hdec (by simp)
    · rw [Message.totalSize_mk, nextIndex_slot hw8 (by omega)]
  | wrap =>
    exact produces_wrap hB hlt hp.1 ht (by omega) (nextIndex_zero_totalSize hq hp)

/-! ### The consumer's program -/

/-- The reader stands at a message. -/
structure AtMessage (B : Nat) (x : Shared) : Prop where
  inv : Inv B x
  unread : x.storage.readIx ≠ x.storage.writeIx
  header : x.storage.buffer.readWord x.storage.readIx ≠ 0

/-- The view is of the message the reader stands at. -/
structure AtHeader (B : Nat) (v : MessageView) (x : Shared) : Prop extends AtMessage B x where
  view : v = { payload := some (x.storage.readIx + 8),
               size := x.storage.buffer.readWord x.storage.readIx, index := x.storage.readIx }

/-- A message at the reader stays there: the producer overwrites nothing that is unread. -/
theorem AtMessage.stable (h : AtMessage B a) (hab : ByProducer B a b) : AtMessage B b := by
  obtain ⟨hne, hword⟩ := hab.unread h.inv h.unread
  refine ⟨hab.inv h.inv, hne, ?_⟩
  rw [hab.read, hword]
  exact h.header

/-- What the consumer has seen at its header stays there until it moves on itself. -/
theorem AtHeader.stable {v : MessageView} (h : AtHeader B v a) (hab : ByProducer B a b) :
    AtHeader B v b := by
  refine ⟨h.toAtMessage.stable hab, ?_⟩
  rw [hab.read, (hab.unread h.inv h.unread).2]
  exact h.view

/-- **What a view shows** is the oldest message that is published and not committed. -/
theorem AtHeader.shows {v : MessageView} (h : AtHeader B v x) :
    ∃ p rest back, x.published = x.committed ++ (p :: rest ++ back) ∧
      v.bytes x.storage.buffer = p ∧ v.index = x.storage.readIx ∧ v.size = p.length ∧
      Layout B x.storage.buffer x.storage.readIx x.storage.writeIx (p :: rest) back ∧
      x.storage.readIx + slot p.length < B := by
  obtain ⟨front, back, hL, hpub⟩ := h.inv.contents
  have hv := h.view
  rcases hL.at_reader h.unread with ⟨p, rest, rfl, hst, hend⟩ | ⟨rfl, -, hz⟩
  · rw [hst.header] at hv
    refine ⟨p, rest, back, hpub, ?_, by rw [hv], by rw [hv], hL, hend⟩
    rw [hv]
    exact hst.bytes
  · -- a sentinel would have size zero
    exact absurd hz h.header

/-- A view of a message is not the empty view. -/
theorem AtHeader.empty_eq {v : MessageView} (h : AtHeader B v x) : v.empty = false := by
  have hsize : v.size ≠ 0 := by
    rw [h.view]
    exact h.header
  unfold MessageView.empty
  exact decide_eq_false hsize

/-- What a round of `dequeue_begin` returns: a view of the message at the reader, or an empty view,
or it goes round again with a message at the reader. If something was `unread` at its start, the
view is not empty; if there was a `message` at the reader, it does not go round again. -/
def Found (B : Nat) (unread message : Prop) (r : Option MessageView) (x : Shared) : Prop :=
  match r with
  | none => ¬ message ∧ AtMessage B x
  | some v => AtHeader B v x ∨ (v.empty = true ∧ ¬ unread)

/-- What is left of a round of `dequeue_begin` can be carried on whatever the producer does. -/
abbrev Looks (B : Nat) (unread message : Prop) : QProg (Option MessageView) → Shared → Prop :=
  Sustains (look (256 + B)) (ByProducer B) (ByConsumer B) (Found B unread message)

/-- The reader stands at the sentinel. -/
structure AtSentinel (B : Nat) (x : Shared) : Prop where
  inv : Inv B x
  unread : x.storage.readIx ≠ x.storage.writeIx
  header : x.storage.buffer.readWord x.storage.readIx = 0

/-- A sentinel at the reader stays there until the reader passes it. -/
theorem AtSentinel.stable (h : AtSentinel B a) (hab : ByProducer B a b) : AtSentinel B b := by
  obtain ⟨hne, hword⟩ := hab.unread h.inv h.unread
  refine ⟨hab.inv h.inv, hne, ?_⟩
  rw [hab.read, hword]
  exact h.header

/-- **Passing the sentinel** is in order, and there is a message behind it. -/
theorem AtSentinel.skip (h : AtSentinel B x) :
    ByConsumer B x { x with storage := { x.storage with readIx := 0 } } ∧
      AtMessage B { x with storage := { x.storage with readIx := 0 } } := by
  obtain ⟨front, back, hL, hpub⟩ := h.inv.contents
  rcases hL.at_reader h.unread with ⟨p, _, _, hst, -⟩ | ⟨rfl, hwr, -⟩
  · -- a message has a nonzero header
    have hpos := hst.pos
    have hlen := hst.header
    have hzero := h.header
    omega
  · have hL' := hL.skip hwr
    have hinv : Inv B { x with storage := { x.storage with readIx := 0 } } :=
      ⟨h.inv.magic, h.inv.abiVersion, h.inv.storageSize, back, [], hL',
        by rw [List.append_nil]; exact hpub⟩
    refine ⟨⟨fun _ => hinv, rfl, rfl, fun hle => absurd hle (by omega),
      fun hlt => absurd hlt (Nat.not_lt_zero _)⟩, hinv, ?_, ?_⟩
    · -- the layout was wrapped, so something has been written behind the start
      change 0 ≠ x.storage.writeIx
      rw [Ne, hL'.eq_iff, List.append_nil, hL.back_eq_nil_iff]
      omega
    · have hback : back ≠ [] := fun hnil => absurd (hL.back_eq_nil_iff.mp hnil) (by omega)
      obtain ⟨p, rest, rfl⟩ := List.exists_cons_of_ne_nil hback
      have hst := hL'.stored
      change x.storage.buffer.readWord 0 ≠ 0
      rw [hst.header]
      have hpos := hst.pos
      omega

/-- The consumer has found something to read at `r`, its own read index. -/
theorem looks_header {U M : Prop} {r : Nat} (hB : B % 8 = 0) (hx : Inv B x)
    (hr : x.storage.readIx = r) (hne : r ≠ x.storage.writeIx) (hM : M → AtMessage B x) :
    Looks B U M (.step (.memcpySizeFrom r) fun messageSize =>
      if messageSize = 0 then .step (.store .readIx 0) fun _ => .ret none
      else .ret (some { payload := some (r + 8), size := messageSize, index := r })) x := by
  have hs : (MemOp.store .readIx 0).InBounds (256 + B) := by
    change 64 + 8 ≤ 256 + B
    omega
  refine Sustains.of_step
    (A := fun t => Inv B t ∧ t.storage.readIx = r ∧ t.storage.readIx ≠ t.storage.writeIx ∧
      (M → AtMessage B t))
    (fun a b h hab => ⟨hab.inv h.1, hab.read.trans h.2.1, (hab.unread h.1 h.2.2.1).1,
      fun hm => (h.2.2.2 hm).stable hab⟩)
    ⟨hx, hr, by rw [hr]; exact hne, hM⟩ fun t ht => ?_
  obtain ⟨hinv, rfl, hne', hM'⟩ := ht
  obtain ⟨front, back, hL, -⟩ := hinv.contents
  have hr8 := hL.read_mod
  have hrB := hL.read_lt
  have hm : (MemOp.memcpySizeFrom t.storage.readIx).InBounds (256 + B) := by
    change 256 + t.storage.readIx + 8 ≤ 256 + B
    omega
  refine ⟨_, _, look_memcpySizeFrom hm, .refl _, ?_⟩
  -- the header just loaded decides between the sentinel and a view
  generalize hword : t.storage.buffer.readWord t.storage.readIx = messageSize
  by_cases hz : messageSize = 0
  · rw [if_pos hz]
    refine Sustains.of_step (A := AtSentinel B) (fun _ _ h hab => h.stable hab)
      ⟨hinv, hne', hword.trans hz⟩ fun u hu => ?_
    obtain ⟨hby, hat⟩ := hu.skip
    refine ⟨(), _, look_eq hs (by simp), hby, fun s hs' => ⟨fun hmes => ?_, hat.stable hs'⟩⟩
    exact (hM' hmes).header (hword.trans hz)
  · rw [if_neg hz]
    intro u hu
    refine .inl (AtHeader.stable ⟨⟨hinv, hne', ?_⟩, by rw [hword]⟩ hu)
    rw [hword]
    exact hz

/-- **A round of `dequeue_begin` under interference.** -/
theorem round_sustained {U M : Prop} (hB : B % 8 = 0) (hx : Inv B x)
    (hU : U → x.storage.readIx ≠ x.storage.writeIx) (hM : M → AtMessage B x) :
    Looks B U M dequeueBeginRound x := by
  have hr : (MemOp.load .readIx).InBounds (256 + B) := by
    change 64 + 8 ≤ 256 + B
    omega
  have hw : (MemOp.load .writeIx).InBounds (256 + B) := by
    change 128 + 8 ≤ 256 + B
    omega
  rw [dequeueBeginRound_eq]
  refine Sustains.of_step
    (A := fun t => Inv B t ∧ (U → t.storage.readIx ≠ t.storage.writeIx) ∧ (M → AtMessage B t))
    (fun _ _ h hab => ⟨hab.inv h.1, fun hu => (hab.unread h.1 (h.2.1 hu)).1,
      fun hm => (h.2.2 hm).stable hab⟩) ⟨hx, hU, hM⟩ fun t₁ h₁ =>
    ⟨t₁.storage.readIx, t₁, look_eq hr (by simp), .refl _, ?_⟩
  -- the read index is the consumer's own
  refine Sustains.of_step
    (A := fun t => Inv B t ∧ (U → t.storage.readIx ≠ t.storage.writeIx) ∧
      (M → AtMessage B t) ∧ t.storage.readIx = t₁.storage.readIx)
    (fun _ _ h hab => ⟨hab.inv h.1, fun hu => (hab.unread h.1 (h.2.1 hu)).1,
      fun hm => (h.2.2.1 hm).stable hab, hab.read.trans h.2.2.2⟩)
    ⟨h₁.1, h₁.2.1, h₁.2.2, rfl⟩ fun t₂ h₂ =>
    ⟨t₂.storage.writeIx, t₂, look_eq hw (by simp), .refl _, ?_⟩
  obtain ⟨hinv, hU₂, hM₂, hr₂⟩ := h₂
  by_cases heq : t₁.storage.readIx = t₂.storage.writeIx
  · rw [if_pos heq]
    exact fun t _ => .inr ⟨rfl, fun hu => hU₂ hu (hr₂.trans heq)⟩
  · rw [if_neg heq]
    exact looks_header hB hinv hr₂ heq hM₂

/-- The `read_ix` store of `dequeue_commit` removes the message the view shows. -/
theorem AtHeader.byConsumer_commit {v : MessageView} (hlt : B < 2 ^ 63) (h : AtHeader B v x) :
    ByConsumer B x
      { x with storage := { x.storage with readIx := nextIndex v.index v.totalSize },
               committed := x.committed ++ [v.bytes x.storage.buffer] } := by
  obtain ⟨p, rest, back, hpub, hbytes, hidx, hsize, hL, hend⟩ := h.shows
  have hslot := lt_slot p.length
  have hnext : nextIndex v.index v.totalSize = x.storage.readIx + slot p.length := by
    unfold MessageView.totalSize
    rw [hidx, hsize, nextIndex_slot hL.read_mod (by omega)]
  have hpop := hL.pop
  rw [hnext, hbytes]
  refine ⟨fun hi => ⟨hi.magic, hi.abiVersion, hi.storageSize, rest, back, hpop, ?_⟩, rfl, rfl,
    fun hle => ⟨Nat.le_add_right _ _, ?_⟩, fun hwr => ⟨?_, Nat.le_add_right _ _⟩⟩
  · rw [hpub, List.append_assoc]
    rfl
  · -- flat before, hence after
    have hback := hL.back_eq_nil_iff.mpr hle
    rw [hback] at hpop
    exact hpop.back_eq_nil_iff.mp rfl
  · by_contra hle
    have hback := hL.back_eq_nil_iff.mpr (Nat.le_of_not_lt hle)
    rw [hback] at hpop
    have hstay := hpop.back_eq_nil_iff.mp rfl
    change x.storage.writeIx < x.storage.readIx + slot p.length at hwr
    omega

end Mixed

end PosixIpc
