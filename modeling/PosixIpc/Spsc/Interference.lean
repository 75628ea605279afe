import PosixIpc.Spsc.Session

/-!
# Producer and consumer under interference

For messages of one footprint `T`, what each party may count on while the other one takes steps.
`Shared` is what both of them work on: the storage, and for the statements the messages published
(the `write_ix` store was performed) and committed (the `read_ix` store of the commit was).

`Shared.Inv` ties the three together: what is published and not committed lies in the buffer. Both
indices are multiples of `T`, which rules out the wrap of `enqueue` with the write index behind the
read index: the reader would have to be a whole footprint further and thus at the buffer's end.

* `ByConsumer a b` is what the producer relies on and every consumer step respects: the write index
  and the bytes stay, and the read index moves towards the write index without passing it.
* `ByProducer a b` is what the consumer relies on and every producer step respects: the read index
  stays, and so does the header it stands at while there is something to read.

`enqueue_sustained` and `dequeueBeginRound_sustained` go through the control points of the two
programs; the assertions between the steps are `Loaded` and `AtHeader`.
-/

namespace PosixIpc

open Framework SPSCQueue SPSCStorage

/-- The storage, with the messages published and committed so far. -/
structure Shared where
  storage : SPSCStorage
  published : List Payload
  committed : List Payload

namespace Shared

/-- The `write_ix` store of `enqueue` publishes its message. -/
def publishedBy (p : Payload) (l : List Payload) : MemOp → List Payload
  | .store .writeIx _ => l ++ [p]
  | _ => l

/-- The `read_ix` store of `dequeue_commit` commits the message its view shows. -/
def committedBy (v : MessageView) (buffer : Mem) (l : List Payload) : MemOp → List Payload
  | .store .readIx _ => l ++ [v.bytes buffer]
  | _ => l

/-- A step of a producer that enqueues `p`. -/
def produce (len : Nat) (p : Payload) (o : MemOp) (x : Shared) : Option (o.Ret × Shared) :=
  (exec len o x.storage).map fun y =>
    (y.1, { x with storage := y.2, published := publishedBy p x.published o })

/-- A step of a consumer inside `dequeue_begin`. -/
def look (len : Nat) (o : MemOp) (x : Shared) : Option (o.Ret × Shared) :=
  (exec len o x.storage).map fun y => (y.1, { x with storage := y.2 })

/-- A step of a consumer that commits `v`. -/
def commit (len : Nat) (v : MessageView) (o : MemOp) (x : Shared) : Option (o.Ret × Shared) :=
  (exec len o x.storage).map fun y =>
    (y.1, { x with storage := y.2, committed := committedBy v x.storage.buffer x.committed o })

section Steps

variable {len : Nat} {o : MemOp} {x : Shared}

/-- A step of `enqueue` within the region. -/
theorem produce_eq (hb : o.InBounds len) (ha : o ≠ .assert false) (p : Payload) :
    produce len p o x = some ((effect o x.storage).1,
      { x with storage := (effect o x.storage).2, published := publishedBy p x.published o }) := by
  rw [produce, exec_eq hb ha]
  rfl

/-- A step of `dequeue_begin` within the region. -/
theorem look_eq (hb : o.InBounds len) (ha : o ≠ .assert false) :
    look len o x =
      some ((effect o x.storage).1, { x with storage := (effect o x.storage).2 }) := by
  rw [look, exec_eq hb ha]
  rfl

/-- A step of `dequeue_commit` within the region. -/
theorem commit_eq (hb : o.InBounds len) (ha : o ≠ .assert false) (v : MessageView) :
    commit len v o x = some ((effect o x.storage).1,
      { x with storage := (effect o x.storage).2,
               committed := committedBy v x.storage.buffer x.committed o }) := by
  rw [commit, exec_eq hb ha]
  rfl

end Steps

/-! ### The invariant -/

/-- The messages published and not committed lie in the buffer, each of footprint `T`, and the
header is the one of a storage of `256 + B` bytes. -/
structure Inv (B T : Nat) (x : Shared) : Prop where
  magic : x.storage.magic = spscMagic
  abiVersion : x.storage.abiVersion = spscAbiVersion
  storageSize : x.storage.storageSize = 256 + B
  read_dvd : T ∣ x.storage.readIx
  write_dvd : T ∣ x.storage.writeIx
  contents : ∃ front back,
    Layout B x.storage.buffer x.storage.readIx x.storage.writeIx front back ∧
      x.published = x.committed ++ (front ++ back) ∧ ∀ p ∈ front ++ back, slot p.length = T

/-- What a step of the consumer may do. -/
structure ByConsumer (B T : Nat) (a b : Shared) : Prop where
  inv : Inv B T a → Inv B T b
  write : b.storage.writeIx = a.storage.writeIx
  buffer : b.storage.buffer = a.storage.buffer
  behind : a.storage.readIx ≤ a.storage.writeIx →
    a.storage.readIx ≤ b.storage.readIx ∧ b.storage.readIx ≤ a.storage.writeIx
  ahead : a.storage.writeIx < b.storage.readIx →
    a.storage.writeIx < a.storage.readIx ∧ a.storage.readIx ≤ b.storage.readIx

/-- What a step of the producer may do. -/
structure ByProducer (B T : Nat) (a b : Shared) : Prop where
  inv : Inv B T a → Inv B T b
  read : b.storage.readIx = a.storage.readIx
  unread : Inv B T a → a.storage.readIx ≠ a.storage.writeIx →
    b.storage.readIx ≠ b.storage.writeIx ∧
      b.storage.buffer.readWord a.storage.readIx = a.storage.buffer.readWord a.storage.readIx

variable {B T : Nat} {a b c x : Shared}

theorem ByConsumer.refl (a : Shared) : ByConsumer B T a a :=
  ⟨id, rfl, rfl, fun h => ⟨le_refl _, h⟩, fun h => ⟨h, le_refl _⟩⟩

theorem ByConsumer.trans (h : ByConsumer B T a b) (h' : ByConsumer B T b c) :
    ByConsumer B T a c := by
  refine ⟨h'.inv ∘ h.inv, h'.write.trans h.write, h'.buffer.trans h.buffer, fun hle => ?_,
    fun hlt => ?_⟩
  · -- a reader at or before the write index stays there
    obtain ⟨h₁, h₂⟩ := h.behind hle
    obtain ⟨h₃, h₄⟩ := h'.behind (by rw [h.write]; exact h₂)
    rw [h.write] at h₄
    exact ⟨h₁.trans h₃, h₄⟩
  · -- one beyond it was there all the time
    obtain ⟨h₁, h₂⟩ := h'.ahead (by rw [h.write]; exact hlt)
    rw [h.write] at h₁
    obtain ⟨h₃, h₄⟩ := h.ahead h₁
    exact ⟨h₃, h₄.trans h₂⟩

theorem ByProducer.refl (a : Shared) : ByProducer B T a a :=
  ⟨id, rfl, fun _ h => ⟨h, rfl⟩⟩

theorem ByProducer.trans (h : ByProducer B T a b) (h' : ByProducer B T b c) :
    ByProducer B T a c := by
  refine ⟨h'.inv ∘ h.inv, h'.read.trans h.read, fun hinv hne => ?_⟩
  obtain ⟨h₁, h₂⟩ := h.unread hinv hne
  obtain ⟨h₃, h₄⟩ := h'.unread (h.inv hinv) h₁
  rw [h.read] at h₄
  exact ⟨h₃, h₄.trans h₂⟩

/-- A step that touches neither an index nor the buffer is in order for both parties. -/
theorem Inv.of_counter (h : Inv B T x) (k : Nat) :
    Inv B T { x with storage := { x.storage with msgCount := k } } :=
  ⟨h.magic, h.abiVersion, h.storageSize, h.read_dvd, h.write_dvd, h.contents⟩

/-- Something to read is a message at the reader or the sentinel. -/
theorem Inv.at_reader (h : Inv B T x) (hne : x.storage.readIx ≠ x.storage.writeIx) :
    (∃ p rest back, x.published = x.committed ++ (p :: rest ++ back) ∧
        Layout B x.storage.buffer x.storage.readIx x.storage.writeIx (p :: rest) back ∧
        Stored x.storage.buffer x.storage.readIx p ∧ x.storage.readIx + T < B ∧
        (∀ p' ∈ p :: rest ++ back, slot p'.length = T)) ∨
      (∃ back, x.published = x.committed ++ back ∧ x.storage.writeIx < x.storage.readIx ∧
        x.storage.buffer.readWord x.storage.readIx = 0 ∧
        Layout B x.storage.buffer x.storage.readIx x.storage.writeIx [] back ∧
        (∀ p' ∈ back, slot p'.length = T)) := by
  obtain ⟨front, back, hL, hpub, hT⟩ := h.contents
  rcases hL.at_reader hne with ⟨p, rest, rfl, hst, hend⟩ | ⟨rfl, hwr, hz⟩
  · rw [hT p (by simp)] at hend
    exact .inl ⟨p, rest, back, hpub, hL, hst, hend, hT⟩
  · exact .inr ⟨back, hpub, hwr, hz, hL, hT⟩

/-! ### Writes of the producer -/

/-- The bytes `[dst, dst + n)` are free: outside `[r, w)` in the flat shape, inside `[w, r)` in the
wrapped one. -/
structure Free (s : SPSCStorage) (dst n : Nat) : Prop where
  flat : s.readIx ≤ s.writeIx → dst + n ≤ s.readIx ∨ s.writeIx ≤ dst
  wrapped : s.writeIx < s.readIx → s.writeIx ≤ dst ∧ dst + n ≤ s.readIx

/-- **A write to free bytes is in order.** -/
theorem byProducer_write (hB : B % 8 = 0) {dst : Nat} {l : List UInt8}
    (hfree : Free x.storage dst l.length) :
    ByProducer B T x
      { x with storage := { x.storage with buffer := x.storage.buffer.write dst l } } := by
  -- the layout of the old bytes is one of the new bytes
  have hlay : ∀ front back, Layout B x.storage.buffer x.storage.readIx x.storage.writeIx front back →
      Layout B (x.storage.buffer.write dst l) x.storage.readIx x.storage.writeIx front back := by
    intro front back hL
    refine hL.of_agree hB (fun hrw => ?_) (fun hwr => ?_)
    · exact Mem.agree_write ((hfree.flat hrw).symm)
    · obtain ⟨h₁, h₂⟩ := hfree.wrapped hwr
      exact ⟨Mem.agree_write (.inr h₂), Mem.agree_write (.inl h₁)⟩
  refine ⟨fun h => ?_, rfl, fun h hne => ⟨hne, ?_⟩⟩
  · -- the contents are untouched
    obtain ⟨front, back, hL, hrest⟩ := h.contents
    exact ⟨h.magic, h.abiVersion, h.storageSize, h.read_dvd, h.write_dvd,
      front, back, hlay front back hL, hrest⟩
  · obtain ⟨front, back, hL, -⟩ := h.contents
    have hr8 := hL.read_mod
    have hw8 := hL.write_mod
    have hr := hL.read_lt
    -- the header at the reader is eight occupied bytes
    refine (Mem.Agree.readWord (a := x.storage.readIx) (b := x.storage.readIx + 8) ?_
      (le_refl _) (le_refl _)).symm
    rcases Nat.lt_or_ge x.storage.writeIx x.storage.readIx with hwr | hrw
    · obtain ⟨h₁, h₂⟩ := hfree.wrapped hwr
      exact Mem.agree_write (.inr h₂)
    · rcases hfree.flat hrw with h₁ | h₁
      · exact Mem.agree_write (.inr h₁)
      · exact Mem.agree_write (.inl (by omega))

/-- **Publishing** a message, when the buffer holds it behind the unread ones at the new index. -/
theorem byProducer_publish {p : Payload} {w' : Nat} (hw' : T ∣ w')
    (hlay : ∀ front back,
      Layout B x.storage.buffer x.storage.readIx x.storage.writeIx front back →
      ∃ front' back', Layout B x.storage.buffer x.storage.readIx w' front' back' ∧
        front' ++ back' = front ++ back ++ [p]) (hp : slot p.length = T) :
    ByProducer B T x { x with storage := { x.storage with writeIx := w' },
                              published := x.published ++ [p] } := by
  refine ⟨fun h => ?_, rfl, fun h hne => ⟨?_, rfl⟩⟩
  · obtain ⟨front, back, hL, hpub, hT⟩ := h.contents
    obtain ⟨front', back', hL', hcat⟩ := hlay front back hL
    refine ⟨h.magic, h.abiVersion, h.storageSize, h.read_dvd, hw', front', back', hL', ?_, ?_⟩
    · rw [hcat, hpub, List.append_assoc]
    · intro p' hp'
      rw [hcat, List.mem_append, List.mem_singleton] at hp'
      rcases hp' with hp' | rfl
      · exact hT p' hp'
      · exact hp
  · -- with a message more, the queue is not empty
    obtain ⟨front, back, hL, -⟩ := h.contents
    obtain ⟨front', back', hL', hcat⟩ := hlay front back hL
    change x.storage.readIx ≠ w'
    rw [Ne, hL'.eq_iff, hcat]
    simp

/-! ### The producer's control points -/

/-- The producer has loaded `r₀` from the read index, and `w₀` is its write index. The reader may
have moved since, but not into the bytes `r₀` promised to be free. -/
structure Loaded (B T : Nat) (r₀ w₀ : Nat) (x : Shared) : Prop where
  inv : Inv B T x
  write : x.storage.writeIx = w₀
  dvd : T ∣ r₀
  lt : r₀ < B
  behind : r₀ ≤ w₀ → r₀ ≤ x.storage.readIx ∧ x.storage.readIx ≤ w₀
  ahead : w₀ < r₀ → w₀ < x.storage.readIx → r₀ ≤ x.storage.readIx

/-- Between its operations the producer knows both indices. -/
theorem Inv.loaded (h : Inv B T x) : Loaded B T x.storage.readIx x.storage.writeIx x := by
  obtain ⟨front, back, hL, -⟩ := h.contents
  exact ⟨h, rfl, h.read_dvd, hL.read_lt, fun hle => ⟨le_refl _, hle⟩, fun _ _ => le_refl _⟩

/-- What the producer has loaded remains true enough: the reader moves towards the write index
only. -/
theorem Loaded.stable {r₀ w₀ : Nat} (h : Loaded B T r₀ w₀ a) (hab : ByConsumer B T a b) :
    Loaded B T r₀ w₀ b := by
  have hw := h.write
  refine ⟨hab.inv h.inv, hab.write.trans hw, h.dvd, h.lt, fun hle => ?_, fun hlt hlt' => ?_⟩
  · obtain ⟨h₁, h₂⟩ := h.behind hle
    obtain ⟨h₃, h₄⟩ := hab.behind (by omega)
    exact ⟨h₁.trans h₃, by omega⟩
  · obtain ⟨h₁, h₂⟩ := hab.ahead (by omega)
    exact (h.ahead hlt (by omega)).trans h₂

/-- A step of the producer that leaves the indices alone keeps what it has loaded. -/
theorem Loaded.of_byProducer {r₀ w₀ : Nat} (h : Loaded B T r₀ w₀ a) (hab : ByProducer B T a b)
    (hw : b.storage.writeIx = a.storage.writeIx) : Loaded B T r₀ w₀ b := by
  refine ⟨hab.inv h.inv, hw.trans h.write, h.dvd, h.lt, fun hle => ?_, fun hlt hlt' => ?_⟩
  · rw [hab.read]
    exact h.behind hle
  · rw [hab.read] at hlt' ⊢
    exact h.ahead hlt hlt'

/-- A slot at the write index that does not reach the reader it loaded is free. -/
theorem Loaded.free_inPlace {r₀ w₀ dst n : Nat} (h : Loaded B T r₀ w₀ x) (hlow : w₀ ≤ dst)
    (hhigh : dst + n ≤ w₀ + T) (hread : w₀ < r₀ → w₀ + T < r₀) : Free x.storage dst n := by
  have hw := h.write
  refine ⟨fun _ => .inr (by omega), fun hwr => ⟨by omega, ?_⟩⟩
  rcases Nat.lt_or_ge w₀ r₀ with hlt | hle
  · -- the reader was beyond the slot and has moved further since, or to the start
    have hfree := hread hlt
    have hstay := h.ahead hlt (by omega)
    omega
  · -- the reader was at or before the write index, and cannot pass it
    have hbeh := h.behind hle
    omega

/-- A slot at the start that does not reach the reader it loaded, behind the write index. -/
theorem Loaded.free_start {r₀ w₀ dst n : Nat} (h : Loaded B T r₀ w₀ x) (hrw : r₀ ≤ w₀)
    (hhigh : dst + n ≤ T) (hread : T < r₀) : Free x.storage dst n := by
  have hw := h.write
  have hbeh := h.behind hrw
  exact ⟨fun _ => .inl (by omega), fun hwr => absurd hwr (by omega)⟩

/-- The bytes of the sentinel, when the reader it loaded is behind the write index. -/
theorem Loaded.free_sentinel {r₀ w₀ : Nat} (h : Loaded B T r₀ w₀ x) (hrw : r₀ ≤ w₀) :
    Free x.storage w₀ 8 := by
  have hw := h.write
  have hbeh := h.behind hrw
  exact ⟨fun _ => .inr (by omega), fun hwr => absurd hwr (by omega)⟩

/-! ### The producer's program -/

/-- What is left of an `enqueue` of `p` can be carried on whatever the consumer does. -/
abbrev Produces (B T : Nat) (p : Payload) : QProg Bool → Shared → Prop :=
  Sustains (produce (256 + B) p) (ByConsumer B T) (ByProducer B T) fun _ _ => True

/-- Of two multiples of `T`, the larger one is at least `T` further. -/
theorem add_le_of_dvd {T w r : Nat} (hw : T ∣ w) (hr : T ∣ r) (hlt : w < r) : w + T ≤ r := by
  obtain ⟨i, rfl⟩ := hw
  obtain ⟨j, rfl⟩ := hr
  have hij : i + 1 ≤ j := Nat.lt_of_mul_lt_mul_left hlt
  calc T * i + T = T * (i + 1) := (Nat.mul_succ T i).symm
    _ ≤ T * j := Nat.mul_le_mul_left T hij

variable {p : Payload}

/-- A write of the producer: the bytes are free, and what is asserted afterwards sustains the
rest. -/
theorem produces_memcpyTo {A : Shared → Prop} (hB : B % 8 = 0)
    (hA : ∀ a b, A a → ByConsumer B T a b → A b) {dst : Nat} {src : List UInt8}
    {k : Unit → QProg Bool} (hx : A x) (hend : dst + src.length ≤ B)
    (hfree : ∀ t, A t → Free t.storage dst src.length)
    (hk : ∀ t, A t → Produces B T p (k ())
      { t with storage := { t.storage with buffer := t.storage.buffer.write dst src } }) :
    Produces B T p (.step (.memcpyTo dst src) k) x := by
  refine Sustains.of_step hA hx fun t ht => ?_
  have hb : (MemOp.memcpyTo dst src).InBounds (256 + B) := by
    change 256 + dst + src.length ≤ 256 + B
    omega
  exact ⟨(), _, produce_eq hb (by simp) p, byProducer_write hB (hfree t ht), hk t ht⟩

/-- The end of `enqueue`: the message becomes visible, then it is counted. -/
theorem produces_publishAt {A : Shared → Prop} (hA : ∀ a b, A a → ByConsumer B T a b → A b)
    {w' : Nat} (hx : A x)
    (hpub : ∀ t, A t → Inv B T t ∧ ByProducer B T t
      { t with storage := { t.storage with writeIx := w' }, published := t.published ++ [p] }) :
    Produces B T p (publishAt w') x := by
  have hw : (MemOp.store .writeIx w').InBounds (256 + B) := by
    change 128 + 8 ≤ 256 + B
    omega
  have hc : (MemOp.fetchAdd .msgCount 1).InBounds (256 + B) := by
    change 192 + 8 ≤ 256 + B
    omega
  refine Sustains.of_step hA hx fun t ht => ?_
  obtain ⟨hinv, hby⟩ := hpub t ht
  refine ⟨(), _, produce_eq hw (by simp) p, hby, ?_⟩
  -- the counter is nobody's concern
  refine Sustains.of_step (A := Inv B T) (fun _ _ h hab => hab.inv h) (hby.inv hinv)
    fun u hu => ⟨(), _, produce_eq hc (by simp) p, ?_, fun _ _ => trivial⟩
  exact ⟨fun h => h.of_counter _, rfl, fun _ hne => ⟨hne, rfl⟩⟩

/-- The producer has loaded its indices and stored the message at offset `i`. -/
structure Written (B T r₀ w₀ i : Nat) (p : Payload) (x : Shared) : Prop where
  loaded : Loaded B T r₀ w₀ x
  stored : Stored x.storage.buffer i p

/-- A message that is written and not published yet is out of the consumer's reach. -/
theorem Written.stable {r₀ w₀ i : Nat} (h : Written B T r₀ w₀ i p a) (hab : ByConsumer B T a b) :
    Written B T r₀ w₀ i p b :=
  ⟨h.loaded.stable hab, by rw [hab.buffer]; exact h.stored⟩

/-- Payload and header are copied into a free slot. -/
theorem produces_message (hB : B % 8 = 0) (hlt : B < 2 ^ 63) (hpos : 1 ≤ p.length)
    (hT : slot p.length = T) {r₀ w₀ i : Nat} (hend : i + T ≤ B)
    (hfree : ∀ t dst n, Loaded B T r₀ w₀ t → i ≤ dst → dst + n ≤ i + T → Free t.storage dst n)
    {k : Unit → QProg Bool} (hx : Loaded B T r₀ w₀ x)
    (hk : ∀ t, Written B T r₀ w₀ i p t → Produces B T p (k ()) t) :
    Produces B T p
      (.step (.memcpyTo (i + 8) p) fun _ => .step (.memcpyTo i (toLE 8 p.length)) k) x := by
  have hslot := lt_slot p.length
  have hhead : (toLE 8 p.length).length = 8 := length_toLE 8 p.length
  refine produces_memcpyTo hB (fun _ _ h hab => h.stable hab) hx (by omega)
    (fun t ht => hfree t _ _ ht (by omega) (by omega)) fun t ht => ?_
  have ht' : Loaded B T r₀ w₀
      { t with storage := { t.storage with buffer := t.storage.buffer.write (i + 8) p } } :=
    ht.of_byProducer (byProducer_write hB (hfree t _ _ ht (by omega) (by omega))) rfl
  -- between the two copies the payload is in place, and the consumer does not write
  refine produces_memcpyTo
    (A := fun u => Loaded B T r₀ w₀ u ∧ u.storage.buffer.read (i + 8) p.length = p) hB
    (fun _ _ h hab => ⟨h.1.stable hab, by rw [hab.buffer]; exact h.2⟩)
    ⟨ht', Mem.read_write_same _ _ _⟩ (by omega)
    (fun u hu => hfree u _ _ hu.1 (le_refl i) (by omega)) fun u hu => hk _ ?_
  refine ⟨hu.1.of_byProducer
    (byProducer_write hB (hfree u _ _ hu.1 (le_refl i) (by omega))) rfl, hpos, ?_, ?_⟩
  · exact Mem.readWord_write_toLE _ _ (by omega)
  · exact (Mem.read_write_of_disjoint (by omega)).trans hu.2

/-- **`enqueue` in place**, under interference. -/
theorem produces_inPlace (hB : B % 8 = 0) (hlt : B < 2 ^ 63) (hpos : 1 ≤ p.length)
    (hT : slot p.length = T) {r₀ w₀ : Nat} (hx : Loaded B T r₀ w₀ x) (hend : w₀ + T < B)
    (hread : w₀ < r₀ → w₀ + T < r₀)
    (hnext : nextIndex w₀ (Message.mk p).totalSize = w₀ + T) :
    Produces B T p (enqueueDecided ⟨p⟩ w₀ .inPlace) x := by
  unfold enqueueDecided QProg.memcpyTo
  simp only [Prog.step_bind, Prog.ret_bind]
  rw [hnext]
  refine produces_message hB hlt hpos hT (by omega)
    (fun t dst n ht hlow hhigh => ht.free_inPlace hlow hhigh hread) hx fun t ht => ?_
  -- the store of the write index is the one step that changes the contents
  refine produces_publishAt (fun _ _ h hab => h.stable hab) ht fun u hu => ⟨hu.loaded.inv, ?_⟩
  have hw := hu.loaded.write
  refine byProducer_publish ?_ (fun front back hL => ?_) hT
  · rw [← hw]
    exact (Nat.dvd_add_right hu.loaded.inv.write_dvd).mpr (dvd_refl T)
  · subst hT
    rw [hw] at hL
    -- the reader of now is no closer than the one the decision was taken on
    have hclear : w₀ < u.storage.readIx → w₀ + slot p.length < u.storage.readIx := by
      intro hwr
      rcases Nat.lt_or_ge w₀ r₀ with hlt₀ | hle₀
      · exact lt_of_lt_of_le (hread hlt₀) (hu.loaded.ahead hlt₀ hwr)
      · exact absurd (hu.loaded.behind hle₀).2 (by omega)
    obtain ⟨front', back', hL', -, hcat⟩ := hL.append hu.stored hend hclear
    exact ⟨front', back', hL', hcat⟩

/-- **`enqueue` with a wrap**, under interference. -/
theorem produces_wrap (hB : B % 8 = 0) (hlt : B < 2 ^ 63) (hpos : 1 ≤ p.length)
    (hT : slot p.length = T) {r₀ w₀ : Nat} (hx : Loaded B T r₀ w₀ x) (hrw : r₀ ≤ w₀)
    (hread : T < r₀) (hw8 : w₀ + 8 ≤ B)
    (hnext : nextIndex 0 (Message.mk p).totalSize = T) :
    Produces B T p (enqueueDecided ⟨p⟩ w₀ .wrap) x := by
  have hr := hx.lt
  unfold enqueueDecided QProg.memcpyTo QProg.memset
  simp only [Prog.step_bind, Prog.ret_bind]
  rw [hnext]
  have hfree : ∀ t dst n, Loaded B T r₀ w₀ t → 0 ≤ dst → dst + n ≤ 0 + T →
      Free t.storage dst n :=
    fun t dst n ht _ hhigh => ht.free_start hrw (by omega) hread
  -- the decision was taken on `r₀`, and the reader has only moved away from the start since
  refine produces_message (i := 0) hB hlt hpos hT (by omega) hfree hx fun t ht => ?_
  -- the sentinel
  have hb : (MemOp.memset w₀ 0 8).InBounds (256 + B) := by
    change 256 + w₀ + 8 ≤ 256 + B
    omega
  refine Sustains.of_step (A := Written B T r₀ w₀ 0 p) (fun _ _ h hab => h.stable hab) ht
    fun u hu => ?_
  have hby : ByProducer B T u { u with storage := { u.storage with
      buffer := u.storage.buffer.write w₀ (List.replicate 8 0) } } :=
    byProducer_write hB (by rw [List.length_replicate]; exact hu.loaded.free_sentinel hrw)
  refine ⟨(), _, produce_eq hb (by simp) p, hby, ?_⟩
  -- the message ends before the sentinel begins
  have hstored : Stored (u.storage.buffer.write w₀ (List.replicate 8 0)) 0 p :=
    hu.stored.of_agree (Mem.agree_write (.inl (by rw [hT]; omega)))
  refine produces_publishAt
    (A := fun t => Written B T r₀ w₀ 0 p t ∧ t.storage.buffer.readWord w₀ = 0)
    (fun _ _ h hab => ⟨h.1.stable hab, by rw [hab.buffer]; exact h.2⟩)
    ⟨⟨hu.loaded.of_byProducer hby rfl, hstored⟩, Mem.readWord_write_zero _ _⟩
    fun t' ht' => ⟨ht'.1.loaded.inv, byProducer_publish (dvd_refl T) (fun front back hL => ?_) hT⟩
  -- at the store the layout is still flat, and the sentinel ends it
  have hw := ht'.1.loaded.write
  obtain ⟨hlow, hhigh⟩ := ht'.1.loaded.behind hrw
  have hL' := hL.wrap (by omega) ht'.1.stored (by rw [hw]; exact ht'.2) (by omega)
  have hback : back = [] := hL.back_eq_nil_iff.mpr (by omega)
  rw [hT] at hL'
  exact ⟨front, [p], hL', by rw [hback, List.append_nil]⟩

/-- **`enqueue` under interference.** No step of it faults, and each of them is in order for the
consumer. -/
theorem enqueue_sustained {q : SPSCQueue} (hq : Sized q B) (hp : LegalPayload q p)
    (hT : slot p.length = T) (hx : Inv B T x) : Produces B T p (q.enqueue ⟨p⟩) x := by
  have hB := hq.mod_eight
  have hlt := hq.lt
  have hle := hp.length_le hq
  have hslot := sixteen_le_slot hp.1
  have hstable : ∀ a b, Inv B T a → ByConsumer B T a b → Inv B T b := fun _ _ h hab => hab.inv h
  have hr : (MemOp.load .readIx).InBounds (256 + B) := by
    change 64 + 8 ≤ 256 + B
    omega
  have hw : (MemOp.load .writeIx).InBounds (256 + B) := by
    change 128 + 8 ≤ 256 + B
    omega
  have ha : ∀ b, (MemOp.assert b).InBounds (256 + B) := fun _ => trivial
  have hpos : 0 < p.length := hp.1
  have hmax : p.length ≤ q.maxPayloadSize := hp.2
  rw [enqueue_eq]
  -- the two assertions
  refine Sustains.of_step hstable hx fun t₁ h₁ =>
    ⟨(), _, produce_eq (ha _) (by simp [hpos]) p, .refl _, ?_⟩
  refine Sustains.of_step hstable h₁ fun t₂ h₂ =>
    ⟨(), _, produce_eq (ha _) (by simp [hmax]) p, .refl _, ?_⟩
  -- the reader may move on after this load
  refine Sustains.of_step hstable h₂ fun t₃ h₃ =>
    ⟨t₃.storage.readIx, _, produce_eq hr (by simp) p, .refl _, ?_⟩
  -- the write index is the producer's own
  refine Sustains.of_step (fun _ _ h hab => h.stable hab) h₃.loaded fun t₄ h₄ =>
    ⟨t₄.storage.writeIx, _, produce_eq hw (by simp) p, .refl _, ?_⟩
  change Produces B T p (enqueueDecided ⟨p⟩ t₄.storage.writeIx
    (q.decision t₃.storage.readIx t₄.storage.writeIx (Message.mk p).totalSize)) t₄
  obtain ⟨front, back, hL, -⟩ := h₄.inv.contents
  have hwB := hL.write_lt
  have hw8 := hL.write_mod
  have hdec := hq.decision_eq hp (r := t₃.storage.readIx) hwB hw8
  rw [hT] at hdec hslot
  rw [← h₄.write] at h₄
  rw [hdec]
  by_cases hend : t₄.storage.writeIx + T < B
  · rw [if_pos hend]
    by_cases hfull : t₄.storage.writeIx < t₃.storage.readIx ∧
        t₃.storage.readIx ≤ t₄.storage.writeIx + T
    · rw [if_pos hfull]
      exact fun _ _ => trivial
    · rw [if_neg hfull]
      refine produces_inPlace hB hlt hp.1 hT h₄ hend (fun hwr => by omega) ?_
      rw [Message.totalSize_mk, nextIndex_slot hw8 (by omega), hT]
  · rw [if_neg hend]
    -- the indices are multiples of the footprint, so the reader cannot be ahead
    have hrw : t₃.storage.readIx ≤ t₄.storage.writeIx := by
      by_contra hwr
      have hstep := add_le_of_dvd h₄.inv.write_dvd h₄.dvd (Nat.lt_of_not_le hwr)
      have hrB := h₄.lt
      omega
    rw [if_neg (by omega)]
    by_cases hread : t₃.storage.readIx ≤ T
    · rw [if_pos hread]
      exact fun _ _ => trivial
    · rw [if_neg hread]
      refine produces_wrap hB hlt hp.1 hT h₄ hrw (by omega) (by omega) ?_
      rw [nextIndex_zero_totalSize hq hp, hT]

/-! ### The consumer's program -/

/-- What is left of a round of `dequeue_begin` can be carried on whatever the producer does. A
returned view shows the message at the reader. -/
def AtHeader (B T : Nat) (v : MessageView) (x : Shared) : Prop :=
  Inv B T x ∧ x.storage.readIx ≠ x.storage.writeIx ∧ v.size ≠ 0 ∧
    v = { payload := some (x.storage.readIx + 8),
          size := x.storage.buffer.readWord x.storage.readIx, index := x.storage.readIx }

/-- What the consumer has seen at its header stays there until it moves on itself. -/
theorem AtHeader.stable {v : MessageView} (h : AtHeader B T v a) (hab : ByProducer B T a b) :
    AtHeader B T v b := by
  obtain ⟨hinv, hne, hsize, hv⟩ := h
  obtain ⟨hne', hword⟩ := hab.unread hinv hne
  refine ⟨hab.inv hinv, hne', hsize, ?_⟩
  rw [hab.read, hword]
  exact hv

/-- **What a view shows** is the oldest message that is published and not committed. -/
theorem AtHeader.shows {v : MessageView} (h : AtHeader B T v x) :
    ∃ p rest back, x.published = x.committed ++ (p :: rest ++ back) ∧
      v.bytes x.storage.buffer = p ∧ v.index = x.storage.readIx ∧ v.size = p.length ∧
      Layout B x.storage.buffer x.storage.readIx x.storage.writeIx (p :: rest) back ∧
      x.storage.readIx + T < B ∧ (∀ p' ∈ p :: rest ++ back, slot p'.length = T) := by
  obtain ⟨hinv, hne, hsize, hv⟩ := h
  rcases hinv.at_reader hne with
    ⟨p, rest, back, hpub, hL, hst, hend, hT⟩ | ⟨back, -, -, hz, -⟩
  · rw [hst.header] at hv
    refine ⟨p, rest, back, hpub, ?_, by rw [hv], by rw [hv], hL, hend, hT⟩
    rw [hv]
    exact hst.bytes
  · -- a sentinel would have size zero
    rw [hv] at hsize
    exact absurd hz hsize

/-- What a round of `dequeue_begin` returns. -/
def RoundPost (B T : Nat) (r : Option MessageView) (x : Shared) : Prop :=
  ∀ v, r = some v → v.empty = false → AtHeader B T v x

/-- What is left of a round of `dequeue_begin` can be carried on whatever the producer does. -/
abbrev Looks (B T : Nat) : QProg (Option MessageView) → Shared → Prop :=
  Sustains (look (256 + B)) (ByProducer B T) (ByConsumer B T) (RoundPost B T)

/-- Passing the sentinel is in order. -/
theorem byConsumer_skip (h : Inv B T x) (hne : x.storage.readIx ≠ x.storage.writeIx)
    (hz : x.storage.buffer.readWord x.storage.readIx = 0) :
    ByConsumer B T x { x with storage := { x.storage with readIx := 0 } } := by
  rcases h.at_reader hne with ⟨p, _, _, -, -, hst, -⟩ | ⟨back, hpub, hwr, -, hL, hT⟩
  · -- a message has a nonzero header
    have hpos := hst.pos
    have hlen := hst.header
    omega
  · refine ⟨fun _ => ⟨h.magic, h.abiVersion, h.storageSize, Nat.dvd_zero T, h.write_dvd,
      back, [], hL.skip hwr, ?_, ?_⟩, rfl, rfl, fun hle => absurd hle (by omega),
      fun hlt => absurd hlt (Nat.not_lt_zero _)⟩
    · rw [List.append_nil]
      exact hpub
    · rw [List.append_nil]
      exact hT

/-- The consumer stands at the sentinel, which stays until the read index is stored. -/
theorem looks_skip (hx : Inv B T x) (hne : x.storage.readIx ≠ x.storage.writeIx)
    (hz : x.storage.buffer.readWord x.storage.readIx = 0) :
    Looks B T (.step (.store .readIx 0) fun _ => .ret none) x := by
  have hs : (MemOp.store .readIx 0).InBounds (256 + B) := by
    change 64 + 8 ≤ 256 + B
    omega
  refine Sustains.of_step
    (A := fun t => Inv B T t ∧ t.storage.readIx ≠ t.storage.writeIx ∧
      t.storage.buffer.readWord t.storage.readIx = 0)
    (fun a b h hab => ?_) ⟨hx, hne, hz⟩ fun t ht =>
    ⟨(), _, look_eq hs (by simp), byConsumer_skip ht.1 ht.2.1 ht.2.2, ?_⟩
  · -- the producer does not write to the header the reader stands at
    obtain ⟨hne', hword⟩ := hab.unread h.1 h.2.1
    refine ⟨hab.inv h.1, hne', ?_⟩
    rw [hab.read, hword]
    exact h.2.2
  · exact fun _ _ v hv => absurd hv (by simp)

/-- Loading a header is a step within the region and changes nothing. -/
theorem look_memcpySizeFrom {len src : Nat} (hb : (MemOp.memcpySizeFrom src).InBounds len) :
    look len (.memcpySizeFrom src) x = some (x.storage.buffer.readWord src, x) := by
  rw [look, exec_eq hb (by simp)]
  rfl

/-- The consumer has found something to read at `r₀`, its own read index. -/
theorem looks_header (hB : B % 8 = 0) {r₀ : Nat} (hx : Inv B T x) (hr₀ : x.storage.readIx = r₀)
    (hne : r₀ ≠ x.storage.writeIx) :
    Looks B T (.step (.memcpySizeFrom r₀) fun messageSize =>
      if messageSize = 0 then .step (.store .readIx 0) fun _ => .ret none
      else .ret (some { payload := some (r₀ + 8), size := messageSize, index := r₀ })) x := by
  refine Sustains.of_step
    (A := fun t => Inv B T t ∧ t.storage.readIx = r₀ ∧ t.storage.readIx ≠ t.storage.writeIx)
    (fun a b h hab => ⟨hab.inv h.1, hab.read.trans h.2.1, (hab.unread h.1 h.2.2).1⟩)
    ⟨hx, hr₀, by rw [hr₀]; exact hne⟩ fun t ht => ?_
  obtain ⟨hinv, rfl, hne'⟩ := ht
  obtain ⟨front, back, hL, -⟩ := hinv.contents
  have hr8 := hL.read_mod
  have hrB := hL.read_lt
  have hm : (MemOp.memcpySizeFrom t.storage.readIx).InBounds (256 + B) := by
    change 256 + t.storage.readIx + 8 ≤ 256 + B
    omega
  refine ⟨_, _, look_memcpySizeFrom hm, .refl _, ?_⟩
  -- the header just loaded decides between the sentinel and a view
  generalize hword : t.storage.buffer.readWord t.storage.readIx = messageSize
  by_cases hz : messageSize = 0
  · rw [if_pos hz]
    exact looks_skip hinv hne' (hword.trans hz)
  · rw [if_neg hz]
    intro u hu v hv _
    obtain rfl := Option.some.inj hv
    exact AtHeader.stable ⟨hinv, hne', hz, by rw [hword]⟩ hu

/-- **A round of `dequeue_begin` under interference.** -/
theorem dequeueBeginRound_sustained (hB : B % 8 = 0) (hx : Inv B T x) :
    Looks B T dequeueBeginRound x := by
  have hr : (MemOp.load .readIx).InBounds (256 + B) := by
    change 64 + 8 ≤ 256 + B
    omega
  have hw : (MemOp.load .writeIx).InBounds (256 + B) := by
    change 128 + 8 ≤ 256 + B
    omega
  rw [dequeueBeginRound_eq]
  refine Sustains.of_step (A := Inv B T) (fun _ _ h hab => hab.inv h) hx fun t₁ h₁ =>
    ⟨t₁.storage.readIx, t₁, look_eq hr (by simp), .refl _, ?_⟩
  -- the read index is the consumer's own
  refine Sustains.of_step (A := fun t => Inv B T t ∧ t.storage.readIx = t₁.storage.readIx)
    (fun _ _ h hab => ⟨hab.inv h.1, hab.read.trans h.2⟩) ⟨h₁, rfl⟩ fun t₂ h₂ =>
    ⟨t₂.storage.writeIx, t₂, look_eq hw (by simp), .refl _, ?_⟩
  by_cases heq : t₁.storage.readIx = t₂.storage.writeIx
  · rw [if_pos heq]
    intro t _ v hv hne
    obtain rfl := Option.some.inj hv
    exact absurd hne (by decide)
  · rw [if_neg heq]
    exact looks_header hB h₂.1 h₂.2 heq

/-- The `read_ix` store of `dequeue_commit` removes the message the view shows. -/
theorem AtHeader.byConsumer_commit {v : MessageView} (hlt : B < 2 ^ 63) (h : AtHeader B T v x) :
    Inv B T x ∧ ByConsumer B T x
      { x with storage := { x.storage with readIx := nextIndex v.index v.totalSize },
               committed := x.committed ++ [v.bytes x.storage.buffer] } := by
  obtain ⟨p, rest, back, hpub, hbytes, hidx, hsize, hL, hend, hT⟩ := h.shows
  have hinv := h.1
  have hpT : slot p.length = T := hT p (by simp)
  have hslot := lt_slot p.length
  have hnext : nextIndex v.index v.totalSize = x.storage.readIx + T := by
    unfold MessageView.totalSize
    rw [hidx, hsize, nextIndex_slot hL.read_mod (by omega), hpT]
  have hpop := hL.pop
  rw [hpT] at hpop
  rw [hnext, hbytes]
  refine ⟨hinv, fun _ => ⟨hinv.magic, hinv.abiVersion, hinv.storageSize,
    (Nat.dvd_add_right hinv.read_dvd).mpr (dvd_refl T), hinv.write_dvd, rest, back, hpop, ?_,
    fun p' hp' => hT p' (by rw [List.cons_append]; exact List.mem_cons_of_mem p hp')⟩,
    rfl, rfl, fun hle => ⟨Nat.le_add_right _ _, ?_⟩, fun hwr => ⟨?_, Nat.le_add_right _ _⟩⟩
  · rw [hpub, List.append_assoc]
    rfl
  · -- flat before, hence after: the message ends where the write index is at the latest
    have hback := hL.back_eq_nil_iff.mpr hle
    rw [hback] at hpop
    exact hpop.back_eq_nil_iff.mp rfl
  · by_contra hle
    have hback := hL.back_eq_nil_iff.mpr (Nat.le_of_not_lt hle)
    rw [hback] at hpop
    have hstay := hpop.back_eq_nil_iff.mp rfl
    change x.storage.writeIx < x.storage.readIx + T at hwr
    omega

end Shared

end PosixIpc
