import PosixIpc.Ring.Buffer

/-!
# Two threads on a ring buffer

The buffers without a lock, shared by one producer and one consumer, behave as a bounded queue. Each
`push` and each `pop` takes effect at one of its accesses, between its call and its return, and in
the order of these accesses all calls together are a history of the queue with room for one element
less than the buffer has (`ringbuffer_linearizable`).

The proof is by rely and guarantee. The producer only appends to the window between the two indices
(`ByProducer`), the consumer only takes from its front (`ByConsumer`). So what a party has loaded of
the other one's index may be out of date, but never in a way that matters: the buffer has at least
the room, and at least the elements, that the old value says. This is all that the indices that
`ringbuffer2` and `ringbuffer3` remember have to be (`Remembers`).
-/

namespace PosixIpc

open Framework

namespace RingBuffer

variable {T : Type}

/-! ### What the accesses have to keep to -/

/-- The members that are not atomic, the elements apart. -/
def Index.Plain : Index → Prop
  | .readIdx | .writeIdx => False
  | .readIdxCached | .writeIdxCached => True

/-- Two accesses to a member that is not atomic, and one of them writes it. -/
def Access.Races : Access T → Access T → Prop
  | .set idx _, .set idx' _ => idx = idx'
  | .set idx _, .get idx' => idx = idx'
  | .get idx, .set idx' _ => idx = idx'
  | .store m _, .store m' _ => m = m' ∧ m.Plain
  | .store m _, .load m' => m = m' ∧ m.Plain
  | .load m, .store m' _ => m = m' ∧ m.Plain
  | _, _ => False

/-- Each party has its own members. The producer writes behind the window, the consumer reads the
front of it. -/
def Proper (b : RingBuffer T) : Party → Access T → Prop
  | .producer, .set idx _ => idx = b.writeIdx
  | .producer, .get _ => False
  | .producer, .load m => m ≠ .writeIdxCached
  | .producer, .store m _ => m = .writeIdx ∨ m = .readIdxCached
  | .consumer, .set _ _ => False
  | .consumer, .get idx => idx = b.readIdx ∧ b.readIdx ≠ b.writeIdx
  | .consumer, .load m => m ≠ .readIdxCached
  | .consumer, .store m _ => m = .readIdx ∨ m = .writeIdxCached

/-- Proper accesses of the two do not race. -/
theorem Proper.not_races {b : RingBuffer T} {o o' : Access T} (h : b.Proper .producer o)
    (h' : b.Proper .consumer o') : ¬ o.Races o' := by
  intro hraces
  cases o with
  -- by the producer's access; only a store and an access to the same index can race
  | load m =>
    cases o' with
    | store m' idx =>
      obtain ⟨rfl, hplain⟩ := hraces
      rcases h' with rfl | rfl
      · exact hplain
      · -- the consumer stores its own index and its own memory, which the producer does not load
        exact h rfl
    | load _ => exact hraces
    | get _ => exact hraces
    | set _ _ => exact hraces
  | store m idx =>
    cases o' with
    | store m' idx' =>
      obtain ⟨rfl, hplain⟩ := hraces
      -- the producer stores its own index, which is atomic, or its own memory, which is not
      rcases h with rfl | rfl
      · exact hplain
      · -- the consumer does not store what the producer stores
        exact absurd h' (by simp [Proper])
    | load m' =>
      obtain ⟨rfl, hplain⟩ := hraces
      rcases h with rfl | rfl
      · exact hplain
      · exact h' rfl
    | get _ => exact hraces
    | set _ _ => exact hraces
  | get idx => exact h
  | set idx val =>
    cases o' with
    -- both at the write index: then the buffer would be empty, and the consumer reads nothing
    | get idx' => exact h'.2 (h'.1.symm.trans (hraces.symm.trans h))
    | set _ _ => exact h'
    | load _ => exact hraces
    | store _ _ => exact hraces

instance (b : RingBuffer T) : (i : Party) → (o : Access T) → Decidable (b.Proper i o)
  | .producer, .set idx _ => inferInstanceAs (Decidable (idx = b.writeIdx))
  | .producer, .get _ => isFalse id
  | .producer, .load m => inferInstanceAs (Decidable (m ≠ .writeIdxCached))
  | .producer, .store m _ => inferInstanceAs (Decidable (m = .writeIdx ∨ m = .readIdxCached))
  | .consumer, .set _ _ => isFalse id
  | .consumer, .get idx =>
    inferInstanceAs (Decidable (idx = b.readIdx ∧ b.readIdx ≠ b.writeIdx))
  | .consumer, .load m => inferInstanceAs (Decidable (m ≠ .readIdxCached))
  | .consumer, .store m _ => inferInstanceAs (Decidable (m = .readIdx ∨ m = .writeIdxCached))

/-- Only what is proper has an answer. -/
def Traced.careful (width n : Nat) (i : Party) (c : Call T) (o : Access T)
    (x : Traced T) : Option (o.Ret × Traced T) :=
  if x.buffer.Proper i o then x.exec width n i c o else none

/-! ### The invariant -/

/-- The remembered indices: the window is part of the one that the producer knows of, and the one
that the consumer knows of is part of the window. -/
structure Remembers (n : Nat) (b : RingBuffer T) : Prop where
  read_lt : b.readIdxCached < n
  read_le : Circular.dist n b.readIdx b.writeIdx ≤ Circular.dist n b.readIdxCached b.writeIdx
  write_lt : b.writeIdxCached < n
  write_le : Circular.dist n b.readIdx b.writeIdxCached ≤ Circular.dist n b.readIdx b.writeIdx

/-- The invariant. -/
structure Inv (caches : Prop) (n : Nat) (x : Traced T) : Prop where
  length_eq : x.buffer.data.length = n
  holds : ∃ l, Circular.Holds (fun i => x.buffer.data[i]?) n x.buffer.readIdx x.buffer.writeIdx l ∧
    Fifo.History (n - 1) x.events l
  remembers : caches → x.buffer.Remembers n

/-- What the steps of the producer come to. -/
structure ByProducer (caches : Prop) (n : Nat) (x y : Traced T) : Prop where
  inv : Inv caches n x → Inv caches n y
  readIdx_eq : y.buffer.readIdx = x.buffer.readIdx
  writeIdxCached_eq : y.buffer.writeIdxCached = x.buffer.writeIdxCached
  grows : Circular.dist n x.buffer.readIdx x.buffer.writeIdx ≤
    Circular.dist n y.buffer.readIdx y.buffer.writeIdx
  front : x.buffer.readIdx ≠ x.buffer.writeIdx → y.buffer.readIdx ≠ y.buffer.writeIdx ∧
    y.buffer.data[y.buffer.readIdx]? = x.buffer.data[x.buffer.readIdx]?
  own_eq : y.own .consumer = x.own .consumer

/-- What the steps of the consumer come to. -/
structure ByConsumer (caches : Prop) (n : Nat) (x y : Traced T) : Prop where
  inv : Inv caches n x → Inv caches n y
  writeIdx_eq : y.buffer.writeIdx = x.buffer.writeIdx
  readIdxCached_eq : y.buffer.readIdxCached = x.buffer.readIdxCached
  data_eq : y.buffer.data = x.buffer.data
  shrinks : Circular.dist n y.buffer.readIdx y.buffer.writeIdx ≤
    Circular.dist n x.buffer.readIdx x.buffer.writeIdx
  own_eq : y.own .producer = x.own .producer

section Relations

variable {caches : Prop} {n : Nat} {x y z : Traced T}

theorem ByProducer.refl (x : Traced T) : ByProducer caches n x x :=
  ⟨id, rfl, rfl, Nat.le_refl _, fun h => ⟨h, rfl⟩, rfl⟩

/-- The window only grows under the producer, and its front stays. -/
theorem ByProducer.trans (h : ByProducer caches n x y) (h' : ByProducer caches n y z) :
    ByProducer caches n x z where
  inv := h'.inv ∘ h.inv
  readIdx_eq := h'.readIdx_eq.trans h.readIdx_eq
  writeIdxCached_eq := h'.writeIdxCached_eq.trans h.writeIdxCached_eq
  grows := Nat.le_trans h.grows h'.grows
  front hx := ⟨(h'.front (h.front hx).1).1, (h'.front (h.front hx).1).2.trans (h.front hx).2⟩
  own_eq := h'.own_eq.trans h.own_eq

theorem ByConsumer.refl (x : Traced T) : ByConsumer caches n x x :=
  ⟨id, rfl, rfl, rfl, Nat.le_refl _, rfl⟩

/-- The window only shrinks under the consumer, and the elements stay where they are. -/
theorem ByConsumer.trans (h : ByConsumer caches n x y) (h' : ByConsumer caches n y z) :
    ByConsumer caches n x z where
  inv := h'.inv ∘ h.inv
  writeIdx_eq := h'.writeIdx_eq.trans h.writeIdx_eq
  readIdxCached_eq := h'.readIdxCached_eq.trans h.readIdxCached_eq
  data_eq := h'.data_eq.trans h.data_eq
  shrinks := Nat.le_trans h'.shrinks h.shrinks
  own_eq := h'.own_eq.trans h.own_eq

end Relations

/-! ### Single accesses -/

namespace Traced

variable {width n : Nat} {i : Party} {c : Call T} {x : Traced T}

/-- An access at which the call does not take effect. -/
theorem careful_silent {o : Access T} {r : o.Ret} {b : RingBuffer T} (hp : x.buffer.Proper i o)
    (hb : RingBuffer.exec o x.buffer = some (r, b)) (hc : c.commits width n x.buffer o = []) :
    x.careful width n i c o = some (r, { x with buffer := b }) := by
  rw [careful, if_pos hp, exec, hb, hc, List.map_nil, List.append_nil]
  rfl

/-- The access at which the call takes effect. -/
theorem careful_commit {o : Access T} {r : o.Ret} {b : RingBuffer T} {e : Fifo.Event T}
    (hp : x.buffer.Proper i o) (hb : RingBuffer.exec o x.buffer = some (r, b))
    (hc : c.commits width n x.buffer o = [e]) :
    x.careful width n i c o = some (r, ⟨b, x.log ++ [(i, e)]⟩) := by
  rw [careful, if_pos hp, exec, hb, hc, List.map_singleton]
  rfl

/-- An event is the party's own that performs the access. -/
theorem own_concat_self (b : RingBuffer T) (x : Traced T) (i : Party) (e : Fifo.Event T) :
    own i ⟨b, x.log ++ [(i, e)]⟩ = x.own i ++ [e] := by
  simp [own]

/-- The other party's events are not touched. -/
theorem own_concat_of_ne (b : RingBuffer T) (x : Traced T) {i j : Party} (h : j ≠ i)
    (e : Fifo.Event T) : own j ⟨b, x.log ++ [(i, e)]⟩ = x.own j := by
  simp [own, Ne.symm h]

/-- Whoever performs it, the event is the last one of the log. -/
theorem events_concat (b : RingBuffer T) (x : Traced T) (i : Party) (e : Fifo.Event T) :
    events ⟨b, x.log ++ [(i, e)]⟩ = x.events ++ [e] :=
  List.map_append

end Traced

/-! ### The producer -/

section Producer

variable {caches : Prop} {width n w : Nat} {es : List (Fifo.Event T)} {x y : Traced T} {val : T}

/-- The producer knows the write index. -/
structure Writing (caches : Prop) (n w : Nat) (es : List (Fifo.Event T)) (x : Traced T) : Prop where
  inv : Inv caches n x
  writeIdx_eq : x.buffer.writeIdx = w
  own_eq : x.own .producer = es

/-- It also knows that there is room. -/
structure Room (caches : Prop) (n w : Nat) (es : List (Fifo.Event T)) (x : Traced T) : Prop
    extends Writing caches n w es x where
  room : Circular.dist n x.buffer.readIdx x.buffer.writeIdx + 1 < n
  ahead : caches → Circular.next n x.buffer.writeIdx ≠ x.buffer.readIdxCached

/-- The consumer moves neither the write index nor the producer's events. -/
theorem Writing.stable (h : Writing caches n w es x) (hby : ByConsumer caches n x y) :
    Writing caches n w es y :=
  ⟨hby.inv h.inv, hby.writeIdx_eq.trans h.writeIdx_eq, hby.own_eq.trans h.own_eq⟩

/-- Room stays room: the consumer only makes more of it. -/
theorem Room.stable (h : Room caches n w es x) (hby : ByConsumer caches n x y) :
    Room caches n w es y where
  toWriting := h.toWriting.stable hby
  room := Nat.lt_of_le_of_lt (Nat.add_le_add_right hby.shrinks 1) h.room
  ahead hc := by
    rw [hby.writeIdx_eq, hby.readIdxCached_eq]
    exact h.ahead hc

/-- The window starts at an index of the buffer. -/
theorem Inv.readIdx_lt (h : Inv caches n x) : x.buffer.readIdx < n := by
  obtain ⟨l, hl, -⟩ := h.holds
  exact hl.read_lt

/-- The window ends at an index of the buffer. -/
theorem Inv.writeIdx_lt (h : Inv caches n x) : x.buffer.writeIdx < n := by
  obtain ⟨l, hl, -⟩ := h.holds
  exact hl.write_lt

/-- There is room if the next index is not the read index, and not an older one either. -/
theorem Inv.room_of_ne (h : Inv caches n x) {r : Nat} (hr : r < n)
    (hle : Circular.dist n x.buffer.readIdx x.buffer.writeIdx ≤ Circular.dist n r x.buffer.writeIdx)
    (hne : Circular.next n x.buffer.writeIdx ≠ r) :
    Circular.dist n x.buffer.readIdx x.buffer.writeIdx + 1 < n := by
  have hlt := Circular.dist_lt hr h.writeIdx_lt
  have hfull := mt (Circular.next_eq_iff hr h.writeIdx_lt).mpr hne
  omega

/-- A `push` that gives up. -/
theorem byProducer_refuse (hfull : Circular.next n x.buffer.writeIdx = x.buffer.readIdx) :
    ByProducer caches n x ⟨x.buffer, x.log ++ [(.producer, .refuse)]⟩ where
  inv h := by
    obtain ⟨l, hl, hlog⟩ := h.holds
    refine ⟨h.length_eq, ⟨l, hl, ?_⟩, h.remembers⟩
    rw [Traced.events_concat]
    refine hlog.concat (.refuse l ?_)
    have hn := (Circular.next_eq_iff hl.read_lt hl.write_lt).mp hfull
    rw [← hl.length_eq] at hn
    exact Nat.eq_sub_of_add_eq hn
  readIdx_eq := rfl
  writeIdxCached_eq := rfl
  grows := Nat.le_refl _
  front h := ⟨h, rfl⟩
  own_eq := Traced.own_concat_of_ne _ x (by decide) _

/-- `data_[writeIdx] = val`. -/
theorem byProducer_set (val : T) :
    ByProducer caches n x
      { x with buffer := { x.buffer with data := x.buffer.data.set x.buffer.writeIdx val } } where
  inv h := by
    obtain ⟨l, hl, hlog⟩ := h.holds
    refine ⟨List.length_set.trans h.length_eq, ⟨l, hl.congr fun i hi => ?_, hlog⟩, fun hc => ?_⟩
    · exact List.getElem?_set_ne (Ne.symm hi)
    · obtain ⟨hr, hrle, hw, hwle⟩ := h.remembers hc
      exact ⟨hr, hrle, hw, hwle⟩
  readIdx_eq := rfl
  writeIdxCached_eq := rfl
  grows := Nat.le_refl _
  front h := ⟨h, List.getElem?_set_ne (Ne.symm h)⟩
  own_eq := rfl

/-- `readIdxCached_ = readIdx_`, with a read index that may have moved on. -/
theorem byProducer_remember {r : Nat} (hr : r < n)
    (hle : Circular.dist n x.buffer.readIdx x.buffer.writeIdx ≤
      Circular.dist n r x.buffer.writeIdx) :
    ByProducer caches n x { x with buffer := { x.buffer with readIdxCached := r } } where
  inv h := by
    refine ⟨h.length_eq, h.holds, fun hc => ?_⟩
    obtain ⟨-, -, hw, hwle⟩ := h.remembers hc
    exact ⟨hr, hle, hw, hwle⟩
  readIdx_eq := rfl
  writeIdxCached_eq := rfl
  grows := Nat.le_refl _
  front h := ⟨h, rfl⟩
  own_eq := rfl

/-- `writeIdx_.store(nextWriteIdx)`. -/
theorem byProducer_store (h : Room caches n w es x)
    (hval : x.buffer.data[x.buffer.writeIdx]? = some val) :
    ByProducer caches n x ⟨{ x.buffer with writeIdx := Circular.next n x.buffer.writeIdx },
      x.log ++ [(.producer, .accept val)]⟩ := by
  have hdist := Circular.dist_next_write h.inv.readIdx_lt h.inv.writeIdx_lt h.room
  refine ⟨fun hinv => ?_, rfl, rfl, hdist.symm ▸ Nat.le_succ _, fun _ => ⟨?_, rfl⟩,
    Traced.own_concat_of_ne _ x (by decide) _⟩
  · obtain ⟨l, hl, hlog⟩ := hinv.holds
    refine ⟨hinv.length_eq, ⟨l ++ [val], hl.append h.room hval, ?_⟩, fun hc => ?_⟩
    · rw [Traced.events_concat]
      refine hlog.concat (.accept l val ?_)
      rw [hl.length_eq]
      exact Nat.lt_sub_of_add_lt h.room
    · -- the index that is remembered is still behind
      obtain ⟨hr, hrle, hw, hwle⟩ := hinv.remembers hc
      have hne := mt (Circular.next_eq_iff hr hl.write_lt).mpr (h.ahead hc)
      have hlt := Circular.dist_lt hr hl.write_lt
      have hdist' := Circular.dist_next_write hr hl.write_lt (by omega)
      refine ⟨hr, ?_, hw, ?_⟩
      · change Circular.dist n _ (Circular.next n _) ≤ Circular.dist n _ (Circular.next n _)
        rw [hdist, hdist']
        exact Nat.succ_le_succ hrle
      · change _ ≤ Circular.dist n _ (Circular.next n _)
        rw [hdist]
        exact Nat.le_succ_of_le hwle
  · intro heq
    have hzero := (Circular.dist_eq_zero_iff h.inv.readIdx_lt).mpr heq
    exact absurd (hdist.symm.trans hzero) (Nat.succ_ne_zero _)

/-- What is asked of a `push`. -/
def Pushes (caches : Prop) (width n : Nat) (val : T) (es : List (Fifo.Event T)) :
    Prog (@Access.Ret T) Bool → Traced T → Prop :=
  Sustains (Traced.careful width n .producer (.push val)) (ByConsumer caches n)
    (ByProducer caches n)
    fun ok t => t.own .producer = es ++ [(Call.push val).event (.pushed ok)]

/-- A `push` that is left with its answer has been entered in the log with it. -/
theorem pushes_ret {ok : Bool}
    (hx : x.own .producer = es ++ [(Call.push val).event (.pushed ok)]) :
    Pushes caches width n val es (.ret ok) x :=
  Sustains.of_ret
    (A := fun t => t.own .producer = es ++ [(Call.push val).event (.pushed ok)])
    (fun _ _ h hby => hby.own_eq.trans h) hx fun _ => id

/-- **The write**, and the store that makes it seen. -/
theorem pushes_pushAt (hn : n < 2 ^ width) (hx : Room caches n w es x) :
    Pushes caches width n val es (pushAt w (nextIdx width n w) val) x := by
  refine Sustains.of_step (fun _ _ h hby => h.stable hby) hx fun t ht => ?_
  have hlt : t.buffer.writeIdx < t.buffer.data.length := by
    rw [ht.inv.length_eq]
    exact ht.inv.writeIdx_lt
  have hset : RingBuffer.exec (.set w val) t.buffer =
      some ((), { t.buffer with data := t.buffer.data.set t.buffer.writeIdx val }) := by
    rw [← ht.writeIdx_eq]
    exact if_pos hlt
  have hby : ByProducer caches n t _ := byProducer_set val
  refine ⟨(), _, Traced.careful_silent ht.writeIdx_eq.symm hset rfl, hby, ?_⟩
  -- from here on the element behind the window is the new one
  refine Sustains.of_step
    (A := fun t => Room caches n w es t ∧ t.buffer.data[t.buffer.writeIdx]? = some val)
    (fun _ _ h hby => ⟨h.1.stable hby, by rw [hby.data_eq, hby.writeIdx_eq]; exact h.2⟩)
    ⟨⟨⟨hby.inv ht.inv, ht.writeIdx_eq, ht.own_eq⟩, ht.room, ht.ahead⟩,
      List.getElem?_set_self hlt⟩ fun u hu => ?_
  obtain ⟨hroom, hval⟩ := hu
  have hstore : RingBuffer.exec (.store .writeIdx (nextIdx width n w)) u.buffer =
      some ((), { u.buffer with writeIdx := Circular.next n u.buffer.writeIdx }) := by
    rw [← hroom.writeIdx_eq, nextIdx_eq hroom.inv.writeIdx_lt hn]
    rfl
  refine ⟨(), _, Traced.careful_commit (.inl rfl) hstore rfl, byProducer_store hroom hval,
    pushes_ret ?_⟩
  rw [Traced.own_concat_self, hroom.own_eq]
  rfl

/-- **The load of the read index.** If there is no room then this is where the `push` gives up. -/
theorem pushes_load_readIdx (hn : n < 2 ^ width) {k : Nat → Prog (@Access.Ret T) Bool}
    (hx : Writing caches n w es x)
    (hfull : ∀ t, Writing caches n w (es ++ [.refuse]) t →
      Pushes caches width n val es (k (nextIdx width n w)) t)
    (hroom : ∀ t, Writing caches n w es t → nextIdx width n w ≠ t.buffer.readIdx →
      Pushes caches width n val es (k t.buffer.readIdx) t) :
    Pushes caches width n val es (.step (.load .readIdx) k) x := by
  refine Sustains.of_step (fun _ _ h hby => h.stable hby) hx fun t ht => ?_
  have hproper : t.buffer.Proper .producer (.load .readIdx : Access T) := by
    simp [Proper]
  by_cases heq : nextIdx width n w = t.buffer.readIdx
  · -- full: this load is where the call is entered in the log, as refused
    have hcommit : (Call.push val).commits width n t.buffer (.load .readIdx) = [.refuse] := by
      rw [Call.commits, ht.writeIdx_eq, if_pos heq]
    have hnext : Circular.next n t.buffer.writeIdx = t.buffer.readIdx := by
      rw [← nextIdx_eq ht.inv.writeIdx_lt hn, ht.writeIdx_eq]
      exact heq
    have hby : ByProducer caches n t _ := byProducer_refuse hnext
    refine ⟨t.buffer.readIdx, _, Traced.careful_commit hproper rfl hcommit, hby, ?_⟩
    rw [← heq]
    refine hfull _ ⟨hby.inv ht.inv, ht.writeIdx_eq, ?_⟩
    rw [Traced.own_concat_self, ht.own_eq]
  · -- there is room, and the consumer can only make more of it
    have hsilent : (Call.push val).commits width n t.buffer (.load .readIdx) = [] := by
      rw [Call.commits, ht.writeIdx_eq, if_neg heq]
    exact ⟨t.buffer.readIdx, t, Traced.careful_silent hproper rfl hsilent, ByProducer.refl t,
      hroom t ht heq⟩

/-- `push` of `ringbuffer0` and `ringbuffer1`. -/
theorem pushes_push (hc : ¬ caches) (hn : n < 2 ^ width) (hx : Inv caches n x) :
    Pushes caches width n val (x.own .producer) (push width n val) x := by
  refine Sustains.of_step (A := fun t => Inv caches n t ∧ t.own .producer = x.own .producer)
    (fun _ _ h hby => ⟨hby.inv h.1, hby.own_eq.trans h.2⟩) ⟨hx, rfl⟩ fun t ht => ?_
  refine ⟨t.buffer.writeIdx, t, Traced.careful_silent (by simp [Proper]) rfl rfl,
    ByProducer.refl t, ?_⟩
  refine pushes_load_readIdx hn ⟨ht.1, rfl, ht.2⟩ (fun u hu => ?_) fun u hu hne => ?_
  · rw [if_pos rfl]
    exact pushes_ret hu.own_eq
  · rw [if_neg hne]
    rw [← hu.writeIdx_eq, nextIdx_eq hu.inv.writeIdx_lt hn] at hne
    exact pushes_pushAt hn
      ⟨hu, hu.inv.room_of_ne hu.inv.readIdx_lt (Nat.le_refl _) hne, fun h => absurd h hc⟩

/-- **The remembered read index** is replaced by one that was loaded, and read again. -/
theorem pushes_remember {es' : List (Fifo.Event T)} {r : Nat} {k : Nat → Prog (@Access.Ret T) Bool}
    (hx : Writing caches n w es' x) (hr : r < n)
    (hle : Circular.dist n x.buffer.readIdx x.buffer.writeIdx ≤ Circular.dist n r x.buffer.writeIdx)
    (hk : ∀ t, Writing caches n w es' t → t.buffer.readIdxCached = r →
      Circular.dist n t.buffer.readIdx t.buffer.writeIdx ≤ Circular.dist n r t.buffer.writeIdx →
      Pushes caches width n val es (k r) t) :
    Pushes caches width n val es
      (.step (.store .readIdxCached r) fun _ => .step (.load .readIdxCached) k) x := by
  -- what is remembered is behind the read index, and stays behind it
  have hstable : ∀ t u : Traced T, Circular.dist n t.buffer.readIdx t.buffer.writeIdx ≤
      Circular.dist n r t.buffer.writeIdx → ByConsumer caches n t u →
      Circular.dist n u.buffer.readIdx u.buffer.writeIdx ≤ Circular.dist n r u.buffer.writeIdx := by
    intro t u htu hby
    refine Nat.le_trans hby.shrinks ?_
    rw [hby.writeIdx_eq]
    exact htu
  refine Sustains.of_step
    (A := fun t => Writing caches n w es' t ∧ Circular.dist n t.buffer.readIdx t.buffer.writeIdx ≤
      Circular.dist n r t.buffer.writeIdx)
    (fun _ _ h hby => ⟨h.1.stable hby, hstable _ _ h.2 hby⟩) ⟨hx, hle⟩ fun t ht => ?_
  -- between the two accesses nobody else writes to what is remembered
  have hby : ByProducer caches n t _ := byProducer_remember hr ht.2
  refine ⟨(), _, Traced.careful_silent (.inr rfl) rfl rfl, hby, ?_⟩
  refine Sustains.of_step
    (A := fun t => (Writing caches n w es' t ∧ t.buffer.readIdxCached = r) ∧
      Circular.dist n t.buffer.readIdx t.buffer.writeIdx ≤ Circular.dist n r t.buffer.writeIdx)
    (fun _ _ h hby => ⟨⟨h.1.1.stable hby, hby.readIdxCached_eq.trans h.1.2⟩,
      hstable _ _ h.2 hby⟩)
    ⟨⟨⟨hby.inv ht.1.inv, ht.1.writeIdx_eq, ht.1.own_eq⟩, rfl⟩, ht.2⟩ fun u hu => ?_
  refine ⟨u.buffer.readIdxCached, u, Traced.careful_silent (by simp [Proper]) rfl rfl,
    ByProducer.refl u, ?_⟩
  rw [hu.1.2]
  exact hk u hu.1.1 hu.1.2 hu.2

/-- `push` of `ringbuffer2` and `ringbuffer3`. -/
theorem pushes_pushCached (hc : caches) (hn : n < 2 ^ width) (hx : Inv caches n x) :
    Pushes caches width n val (x.own .producer) (pushCached width n val) x := by
  refine Sustains.of_step (A := fun t => Inv caches n t ∧ t.own .producer = x.own .producer)
    (fun _ _ h hby => ⟨hby.inv h.1, hby.own_eq.trans h.2⟩) ⟨hx, rfl⟩ fun t ht => ?_
  refine ⟨t.buffer.writeIdx, t, Traced.careful_silent (by simp [Proper]) rfl rfl,
    ByProducer.refl t, ?_⟩
  refine Sustains.of_step (A := Writing caches n t.buffer.writeIdx (x.own .producer))
    (fun _ _ h hby => h.stable hby) ⟨ht.1, rfl, ht.2⟩ fun u hu => ?_
  refine ⟨u.buffer.readIdxCached, u, Traced.careful_silent (by simp [Proper]) rfl rfl,
    ByProducer.refl u, ?_⟩
  split
  · next heq =>
    refine pushes_load_readIdx hn hu (fun v hv => ?_) fun v hv hne => ?_
    · -- the index behind the window is as far from it as an index can be
      have hw := hv.inv.writeIdx_lt
      have hnext := nextIdx_eq hw hn
      rw [hv.writeIdx_eq] at hnext
      refine pushes_remember hv (r := nextIdx width n t.buffer.writeIdx) ?_ ?_ fun z hz _ _ => ?_
      · rw [hnext, ← hv.writeIdx_eq]
        exact Circular.next_lt hw
      · rw [hnext, ← hv.writeIdx_eq]
        exact Circular.dist_le_dist_next hv.inv.readIdx_lt hw
      · rw [if_pos rfl]
        exact pushes_ret hz.own_eq
    · refine pushes_remember hv hv.inv.readIdx_lt (Nat.le_refl _) fun z hz hcached hle => ?_
      rw [if_neg hne]
      rw [← hz.writeIdx_eq, nextIdx_eq hz.inv.writeIdx_lt hn] at hne
      exact pushes_pushAt hn ⟨hz, hz.inv.room_of_ne hv.inv.readIdx_lt hle hne, fun _ =>
        hcached.symm ▸ hne⟩
  · next hne =>
    obtain ⟨hr, hrle, -, -⟩ := hu.inv.remembers hc
    rw [← hu.writeIdx_eq, nextIdx_eq hu.inv.writeIdx_lt hn] at hne
    exact pushes_pushAt hn ⟨hu, hu.inv.room_of_ne hr hrle hne, fun _ => hne⟩

end Producer

/-! ### The consumer -/

section Consumer

variable {caches : Prop} {width n r : Nat} {es : List (Fifo.Event T)} {x y : Traced T} {val : T}

/-- The consumer knows the read index. -/
structure Reading (caches : Prop) (n r : Nat) (es : List (Fifo.Event T)) (x : Traced T) : Prop where
  inv : Inv caches n x
  readIdx_eq : x.buffer.readIdx = r
  own_eq : x.own .consumer = es

/-- It also knows that there is an element. -/
structure Filled (caches : Prop) (n r : Nat) (es : List (Fifo.Event T)) (x : Traced T) : Prop
    extends Reading caches n r es x where
  filled : x.buffer.readIdx ≠ x.buffer.writeIdx
  ahead : caches → x.buffer.readIdx ≠ x.buffer.writeIdxCached

/-- The producer moves neither the read index nor the consumer's events. -/
theorem Reading.stable (h : Reading caches n r es x) (hby : ByProducer caches n x y) :
    Reading caches n r es y :=
  ⟨hby.inv h.inv, hby.readIdx_eq.trans h.readIdx_eq, hby.own_eq.trans h.own_eq⟩

/-- What is at the front of the window stays there until the consumer takes it. -/
theorem Filled.stable (h : Filled caches n r es x) (hby : ByProducer caches n x y) :
    Filled caches n r es y where
  toReading := h.toReading.stable hby
  filled := (hby.front h.filled).1
  ahead hc := by
    rw [hby.readIdx_eq, hby.writeIdxCached_eq]
    exact h.ahead hc

/-- There is an element if the read index is not the write index, and not an older one either. -/
theorem Inv.filled_of_ne (h : Inv caches n x) {w : Nat}
    (hle : Circular.dist n x.buffer.readIdx w ≤ Circular.dist n x.buffer.readIdx x.buffer.writeIdx)
    (hne : x.buffer.readIdx ≠ w) : x.buffer.readIdx ≠ x.buffer.writeIdx := by
  intro heq
  have hzero := (Circular.dist_eq_zero_iff h.readIdx_lt).mpr heq
  rw [hzero] at hle
  exact hne ((Circular.dist_eq_zero_iff h.readIdx_lt).mp (Nat.le_zero.mp hle))

/-- A `pop` that gives up. -/
theorem byConsumer_miss (hempty : x.buffer.readIdx = x.buffer.writeIdx) :
    ByConsumer caches n x ⟨x.buffer, x.log ++ [(.consumer, .peek none)]⟩ where
  inv h := by
    obtain ⟨l, hl, hlog⟩ := h.holds
    refine ⟨h.length_eq, ⟨l, hl, ?_⟩, h.remembers⟩
    rw [Traced.events_concat]
    obtain rfl := hl.eq_nil_iff.mpr hempty
    exact hlog.concat (.peek [])
  writeIdx_eq := rfl
  readIdxCached_eq := rfl
  data_eq := rfl
  shrinks := Nat.le_refl _
  own_eq := Traced.own_concat_of_ne _ x (by decide) _

/-- `writeIdxCached_ = writeIdx_`, with a write index that may have moved on. -/
theorem byConsumer_remember {w : Nat} (hw : w < n)
    (hle : Circular.dist n x.buffer.readIdx w ≤
      Circular.dist n x.buffer.readIdx x.buffer.writeIdx) :
    ByConsumer caches n x { x with buffer := { x.buffer with writeIdxCached := w } } where
  inv h := by
    refine ⟨h.length_eq, h.holds, fun hc => ?_⟩
    obtain ⟨hr, hrle, -, -⟩ := h.remembers hc
    exact ⟨hr, hrle, hw, hle⟩
  writeIdx_eq := rfl
  readIdxCached_eq := rfl
  data_eq := rfl
  shrinks := Nat.le_refl _
  own_eq := rfl

/-- `readIdx_.store(nextReadIdx)`. -/
theorem byConsumer_store (h : Filled caches n r es x)
    (hval : x.buffer.data[x.buffer.readIdx]? = some val) :
    ByConsumer caches n x ⟨{ x.buffer with readIdx := Circular.next n x.buffer.readIdx },
      x.log ++ [(.consumer, .pop val)]⟩ := by
  have hlt := h.inv.readIdx_lt
  have hpos : ∀ w, x.buffer.readIdx ≠ w → 0 < Circular.dist n x.buffer.readIdx w := fun w hw =>
    Nat.pos_of_ne_zero (mt (Circular.dist_eq_zero_iff hlt).mp hw)
  have hdist := Circular.dist_next_read hlt h.inv.writeIdx_lt (hpos _ h.filled)
  refine ⟨fun hinv => ?_, rfl, rfl, rfl, hdist ▸ Nat.le_succ _,
    Traced.own_concat_of_ne _ x (by decide) _⟩
  obtain ⟨l, hl, hlog⟩ := hinv.holds
  cases l with
  | nil => exact absurd (hl.eq_nil_iff.mp rfl) h.filled
  | cons a l =>
    obtain rfl : a = val := Option.some.inj (hl.get_read.symm.trans hval)
    refine ⟨hinv.length_eq, ⟨l, hl.tail, ?_⟩, fun hc => ?_⟩
    · rw [Traced.events_concat]
      exact hlog.concat (.pop a l)
    · -- the index that is remembered is still ahead
      obtain ⟨hr, hrle, hw, hwle⟩ := hinv.remembers hc
      have hdist' := Circular.dist_next_read hlt hw (hpos _ (h.ahead hc))
      refine ⟨hr, ?_, hw, ?_⟩
      · refine Nat.le_trans ?_ hrle
        rw [← hdist]
        exact Nat.le_succ _
      · rw [← hdist, ← hdist'] at hwle
        exact Nat.le_of_succ_le_succ hwle

/-- What is asked of a `pop`. -/
def Pops (caches : Prop) (width n : Nat) (es : List (Fifo.Event T)) :
    Prog (@Access.Ret T) (Option T) → Traced T → Prop :=
  Sustains (Traced.careful width n .consumer .pop) (ByProducer caches n) (ByConsumer caches n)
    fun val t => t.own .consumer = es ++ [Call.pop.event (.popped val)]

/-- A `pop` that is left with its answer has been entered in the log with it. -/
theorem pops_ret {val : Option T} (hx : x.own .consumer = es ++ [Call.pop.event (.popped val)]) :
    Pops caches width n es (.ret val) x :=
  Sustains.of_ret (A := fun t => t.own .consumer = es ++ [Call.pop.event (.popped val)])
    (fun _ _ h hby => hby.own_eq.trans h) hx fun _ => id

/-- **The read**, and the store that gives the place away. -/
theorem pops_popAt (hn : n < 2 ^ width) (hx : Filled caches n r es x) :
    Pops caches width n es (popAt width n r) x := by
  refine Sustains.of_step (fun _ _ h hby => h.stable hby) hx fun t ht => ?_
  have hlt : t.buffer.readIdx < t.buffer.data.length := by
    rw [ht.inv.length_eq]
    exact ht.inv.readIdx_lt
  obtain ⟨val, hval⟩ : ∃ val, t.buffer.data[t.buffer.readIdx]? = some val :=
    ⟨_, List.getElem?_eq_getElem hlt⟩
  have hget : RingBuffer.exec (.get r) t.buffer = some (val, t.buffer) := by
    rw [← ht.readIdx_eq]
    exact congrArg (Option.map fun val => (val, t.buffer)) hval
  refine ⟨val, t, Traced.careful_silent ⟨ht.readIdx_eq.symm, ht.filled⟩ hget rfl,
    ByConsumer.refl t, ?_⟩
  -- the producer leaves the front as it is
  refine Sustains.of_step
    (A := fun t => Filled caches n r es t ∧ t.buffer.data[t.buffer.readIdx]? = some val)
    (fun _ _ h hby => ⟨h.1.stable hby, (hby.front h.1.filled).2.trans h.2⟩) ⟨ht, hval⟩
    fun u hu => ?_
  obtain ⟨hfilled, hval⟩ := hu
  have hstore : RingBuffer.exec (.store .readIdx (nextIdx width n r)) u.buffer =
      some ((), { u.buffer with readIdx := Circular.next n u.buffer.readIdx }) := by
    rw [← hfilled.readIdx_eq, nextIdx_eq hfilled.inv.readIdx_lt hn]
    rfl
  have hcommit : Call.pop.commits width n u.buffer (.store .readIdx (nextIdx width n r)) =
      [.pop val] := by
    rw [Call.commits, hval]
    rfl
  refine ⟨(), _, Traced.careful_commit (.inl rfl) hstore hcommit, byConsumer_store hfilled hval,
    pops_ret ?_⟩
  rw [Traced.own_concat_self, hfilled.own_eq]
  rfl

/-- **The load of the write index.** If there is no element then this is where the `pop` gives up.
-/
theorem pops_load_writeIdx {k : Nat → Prog (@Access.Ret T) (Option T)}
    (hx : Reading caches n r es x)
    (hempty : ∀ t, Reading caches n r (es ++ [.peek none]) t → Pops caches width n es (k r) t)
    (hfilled : ∀ t, Reading caches n r es t → r ≠ t.buffer.writeIdx →
      Pops caches width n es (k t.buffer.writeIdx) t) :
    Pops caches width n es (.step (.load .writeIdx) k) x := by
  refine Sustains.of_step (fun _ _ h hby => h.stable hby) hx fun t ht => ?_
  have hproper : t.buffer.Proper .consumer (.load .writeIdx : Access T) := by
    simp [Proper]
  by_cases heq : r = t.buffer.writeIdx
  · -- empty: this load is where the call is entered in the log, as a look
    have hnone : t.buffer.readIdx = t.buffer.writeIdx := ht.readIdx_eq.trans heq
    have hcommit : Call.pop.commits width n t.buffer (.load .writeIdx) = [.peek none] := by
      rw [Call.commits, if_pos hnone]
    have hby : ByConsumer caches n t _ := byConsumer_miss hnone
    refine ⟨t.buffer.writeIdx, _, Traced.careful_commit hproper rfl hcommit, hby, ?_⟩
    rw [← heq]
    refine hempty _ ⟨hby.inv ht.inv, ht.readIdx_eq, ?_⟩
    rw [Traced.own_concat_self, ht.own_eq]
  · -- there is an element, and the producer can only add others
    have hsilent : Call.pop.commits width n t.buffer (.load .writeIdx) = [] := by
      rw [Call.commits, ht.readIdx_eq, if_neg heq]
    exact ⟨t.buffer.writeIdx, t, Traced.careful_silent hproper rfl hsilent, ByConsumer.refl t,
      hfilled t ht heq⟩

/-- **The remembered write index** is replaced by one that was loaded, and read again. -/
theorem pops_remember {es' : List (Fifo.Event T)} {w : Nat}
    {k : Nat → Prog (@Access.Ret T) (Option T)} (hx : Reading caches n r es' x) (hw : w < n)
    (hle : Circular.dist n x.buffer.readIdx w ≤ Circular.dist n x.buffer.readIdx x.buffer.writeIdx)
    (hk : ∀ t, Reading caches n r es' t → t.buffer.writeIdxCached = w →
      Circular.dist n t.buffer.readIdx w ≤ Circular.dist n t.buffer.readIdx t.buffer.writeIdx →
      Pops caches width n es (k w) t) :
    Pops caches width n es
      (.step (.store .writeIdxCached w) fun _ => .step (.load .writeIdxCached) k) x := by
  -- what is remembered is before the write index, and stays before it
  have hstable : ∀ t u : Traced T, Circular.dist n t.buffer.readIdx w ≤
      Circular.dist n t.buffer.readIdx t.buffer.writeIdx → ByProducer caches n t u →
      Circular.dist n u.buffer.readIdx w ≤ Circular.dist n u.buffer.readIdx u.buffer.writeIdx := by
    intro t u htu hby
    refine Nat.le_trans ?_ hby.grows
    rw [hby.readIdx_eq]
    exact htu
  refine Sustains.of_step
    (A := fun t => Reading caches n r es' t ∧ Circular.dist n t.buffer.readIdx w ≤
      Circular.dist n t.buffer.readIdx t.buffer.writeIdx)
    (fun _ _ h hby => ⟨h.1.stable hby, hstable _ _ h.2 hby⟩) ⟨hx, hle⟩ fun t ht => ?_
  -- between the two accesses nobody else writes to what is remembered
  have hby : ByConsumer caches n t _ := byConsumer_remember hw ht.2
  refine ⟨(), _, Traced.careful_silent (.inr rfl) rfl rfl, hby, ?_⟩
  refine Sustains.of_step
    (A := fun t => (Reading caches n r es' t ∧ t.buffer.writeIdxCached = w) ∧
      Circular.dist n t.buffer.readIdx w ≤ Circular.dist n t.buffer.readIdx t.buffer.writeIdx)
    (fun _ _ h hby => ⟨⟨h.1.1.stable hby, hby.writeIdxCached_eq.trans h.1.2⟩,
      hstable _ _ h.2 hby⟩)
    ⟨⟨⟨hby.inv ht.1.inv, ht.1.readIdx_eq, ht.1.own_eq⟩, rfl⟩, ht.2⟩ fun u hu => ?_
  refine ⟨u.buffer.writeIdxCached, u, Traced.careful_silent (by simp [Proper]) rfl rfl,
    ByConsumer.refl u, ?_⟩
  rw [hu.1.2]
  exact hk u hu.1.1 hu.1.2 hu.2

/-- `pop` of `ringbuffer0` and `ringbuffer1`. -/
theorem pops_pop (hc : ¬ caches) (hn : n < 2 ^ width) (hx : Inv caches n x) :
    Pops caches width n (x.own .consumer) (pop width n) x := by
  refine Sustains.of_step (A := fun t => Inv caches n t ∧ t.own .consumer = x.own .consumer)
    (fun _ _ h hby => ⟨hby.inv h.1, hby.own_eq.trans h.2⟩) ⟨hx, rfl⟩ fun t ht => ?_
  refine ⟨t.buffer.readIdx, t, Traced.careful_silent (by simp [Proper]) rfl rfl,
    ByConsumer.refl t, ?_⟩
  refine pops_load_writeIdx ⟨ht.1, rfl, ht.2⟩ (fun u hu => ?_) fun u hu hne => ?_
  · rw [if_pos rfl]
    exact pops_ret hu.own_eq
  · rw [if_neg hne]
    exact pops_popAt hn ⟨hu, hu.readIdx_eq.symm ▸ hne, fun h => absurd h hc⟩

/-- `pop` of `ringbuffer2` and `ringbuffer3`. -/
theorem pops_popCached (hc : caches) (hn : n < 2 ^ width) (hx : Inv caches n x) :
    Pops caches width n (x.own .consumer) (popCached width n) x := by
  refine Sustains.of_step (A := fun t => Inv caches n t ∧ t.own .consumer = x.own .consumer)
    (fun _ _ h hby => ⟨hby.inv h.1, hby.own_eq.trans h.2⟩) ⟨hx, rfl⟩ fun t ht => ?_
  refine ⟨t.buffer.readIdx, t, Traced.careful_silent (by simp [Proper]) rfl rfl,
    ByConsumer.refl t, ?_⟩
  refine Sustains.of_step (A := Reading caches n t.buffer.readIdx (x.own .consumer))
    (fun _ _ h hby => h.stable hby) ⟨ht.1, rfl, ht.2⟩ fun u hu => ?_
  refine ⟨u.buffer.writeIdxCached, u, Traced.careful_silent (by simp [Proper]) rfl rfl,
    ByConsumer.refl u, ?_⟩
  -- the remembered index decides whether the shared one is loaded at all
  split
  · refine pops_load_writeIdx hu (fun v hv => ?_) fun v hv hne => ?_
    · have hlt := hv.inv.readIdx_lt
      rw [hv.readIdx_eq] at hlt
      refine pops_remember hv hlt ?_ fun z hz _ _ => ?_
      · rw [(Circular.dist_eq_zero_iff hv.inv.readIdx_lt).mpr hv.readIdx_eq]
        exact Nat.zero_le _
      · rw [if_pos rfl]
        exact pops_ret hz.own_eq
    · refine pops_remember hv hv.inv.writeIdx_lt (Nat.le_refl _) fun z hz hcached hle => ?_
      -- what was loaded is not the read index, so the front of the window is an element
      rw [if_neg hne]
      rw [← hz.readIdx_eq] at hne
      exact pops_popAt hn ⟨hz, hz.inv.filled_of_ne hle hne, fun _ => hcached.symm ▸ hne⟩
  · next hne =>
    -- an element was remembered, and only this party takes elements out
    obtain ⟨-, -, -, hwle⟩ := hu.inv.remembers hc
    rw [← hu.readIdx_eq] at hne
    exact pops_popAt hn ⟨hu, hu.inv.filled_of_ne hwle hne, fun _ => hne⟩

end Consumer

/-! ### Both -/

section Both

/-- What a party bears with. -/
def Rely (caches : Prop) (n : Nat) : Party → Traced T → Traced T → Prop
  | .producer => ByConsumer caches n
  | .consumer => ByProducer caches n

/-- What a party does. -/
def Guarantee (caches : Prop) (n : Nat) : Party → Traced T → Traced T → Prop
  | .producer => ByProducer caches n
  | .consumer => ByConsumer caches n

variable {kind : Kind} {n : Nat}

/-- **`push`**, in each of the four buffers. -/
theorem pushes_body (hn : n < 2 ^ kind.width) {x : Traced T} (hx : Inv kind.Caches n x) (val : T) :
    Pushes kind.Caches kind.width n val (x.own .producer) (kind.push n val) x := by
  cases kind with
  | ringbuffer0 => exact pushes_push id hn hx
  | ringbuffer1 => exact pushes_push id hn hx
  | ringbuffer2 => exact pushes_pushCached trivial hn hx
  | ringbuffer3 => exact pushes_pushCached trivial hn hx

/-- **`pop`**, in each of the four buffers. -/
theorem pops_body (hn : n < 2 ^ kind.width) {x : Traced T} (hx : Inv kind.Caches n x) :
    Pops kind.Caches kind.width n (x.own .consumer) (kind.pop n) x := by
  cases kind with
  | ringbuffer0 => exact pops_pop id hn hx
  | ringbuffer1 => exact pops_pop id hn hx
  | ringbuffer2 => exact pops_popCached trivial hn hx
  | ringbuffer3 => exact pops_popCached trivial hn hx

/-- The two parties meet the rule. -/
theorem linearizes (hn : n < 2 ^ kind.width) :
    Linearizes (Traced.exec kind.width n) (Traced.careful kind.width n)
      (fun _ => Call.body kind n) Call.Fits (Inv (T := T) kind.Caches n) (Rely kind.Caches n)
      (Guarantee kind.Caches n) Traced.own fun _ => Call.event where
  -- to be careful is to make the same access, if it is proper
  careful_exec i c o s y h := by
    rw [Traced.careful] at h
    split at h
    · exact h
    · exact absurd h (by simp)
  rely_refl i s := by
    cases i with
    | producer => exact ByConsumer.refl s
    | consumer => exact ByProducer.refl s
  rely_trans i s t u h h' := by
    cases i with
    | producer => exact ByConsumer.trans h h'
    | consumer => exact ByProducer.trans h h'
  -- what one party guarantees is what the other relies on
  rely_of_guarantee i j s t hji _ h := by
    cases i with
    | producer =>
      cases j with
      | producer => exact absurd rfl hji
      | consumer => exact h
    | consumer =>
      cases j with
      | producer => exact h
      | consumer => exact absurd rfl hji
  rely_own i s t h := by
    cases i with
    | producer => exact ByConsumer.own_eq h
    | consumer => exact ByProducer.own_eq h
  guarantee_inv i s t hs h := by
    cases i with
    | producer => exact ByProducer.inv h hs
    | consumer => exact ByConsumer.inv h hs
  -- each party makes calls of its own kind, and each call is carried on under interference
  sustained i c s hc hs := by
    cases i with
    | producer =>
      cases c with
      | push val => exact Sustains.map (pushes_body hn hs val)
      | pop => exact hc.elim
    | consumer =>
      cases c with
      | push val => exact hc.elim
      | pop => exact Sustains.map (pops_body hn hs)

/-- A new buffer. -/
theorem inv_start (caches : Prop) {data : List T} (h : 0 < data.length) :
    Inv caches data.length ⟨{ data := data }, []⟩ := by
  have hdist : Circular.dist data.length 0 0 = 0 := (Circular.dist_eq_zero_iff h).mpr rfl
  refine ⟨rfl, ⟨[], ⟨h, h, hdist.symm, fun k hk => absurd hk (Nat.not_lt_zero k)⟩, .nil⟩,
    fun _ => ⟨h, Nat.le_refl _, h, Nat.le_refl _⟩⟩

/-- No call has more than seven accesses. -/
theorem within_body (kind : Kind) (n : Nat) (c : Call T) : (c.body kind n).Within 7 := by
  cases c with
  | push val =>
    -- two loads, the write and the store of the index
    have hpush : ∀ width, (push width n val).Within 7 := by
      intro width w r
      dsimp only
      split
      · exact trivial
      · exact fun _ _ => trivial
    -- three more accesses where the remembered index is renewed
    have hcached : ∀ width, (pushCached width n val).Within 7 := by
      intro width w r
      dsimp only
      split
      · intro r' _ r''
        dsimp only
        split
        · exact trivial
        · exact fun _ _ => trivial
      · exact fun _ _ => trivial
    cases kind with
    | ringbuffer0 => exact (hpush 32).map _
    | ringbuffer1 => exact (hpush 32).map _
    | ringbuffer2 => exact (hcached 32).map _
    | ringbuffer3 => exact (hcached 64).map _
  | pop =>
    -- two loads, the read and the store of the index
    have hpop : ∀ width, (pop width n : Prog (@Access.Ret T) (Option T)).Within 7 := by
      intro width r w
      dsimp only
      split
      · exact trivial
      · exact fun _ _ => trivial
    -- three more accesses where the remembered index is renewed
    have hcached : ∀ width, (popCached width n : Prog (@Access.Ret T) (Option T)).Within 7 := by
      intro width r w
      dsimp only
      split
      · intro w' _ w''
        dsimp only
        split
        · exact trivial
        · exact fun _ _ => trivial
      · exact fun _ _ => trivial
    cases kind with
    | ringbuffer0 => exact (hpop 32).map _
    | ringbuffer1 => exact (hpop 32).map _
    | ringbuffer2 => exact (hcached 32).map _
    | ringbuffer3 => exact (hcached 64).map _

/-- **The ring buffers without a lock are bounded queues.** A buffer with elements of any value is
shared by a producer that pushes and a consumer that pops, in any interleaving of their accesses.
* The window between the indices has the contents of the queue, and all calls that have taken effect
  so far are a history of it, with room for one element less than the buffer has. What was accepted is
  what was taken, followed by the contents.
* A party that is not in a call has taken effect with exactly the calls it has returned from, with the
  answers it got.
* A party in a call can always go on, and has no more than seven accesses to go.
* The two never are about to access an element or a remembered index at once if one of them writes
  it. -/
theorem ringbuffer_linearizable (kind : Kind) {data : List T} (hpos : 0 < data.length)
    (hlt : data.length < 2 ^ kind.width) {acts : List (TeamAction Party (Call T))} {y : Duo T}
    (hr : Reaches (Duo.step kind data.length) (Gang.Permits Call.Fits) (Duo.start data) acts y) :
    (∃ l, Circular.Holds (fun i => y.shared.buffer.data[i]?) data.length y.shared.buffer.readIdx
        y.shared.buffer.writeIdx l ∧ Fifo.History (data.length - 1) y.shared.events l ∧
      Fifo.accepted y.shared.events = Fifo.popped y.shared.events ++ l) ∧
    (∀ i, y.current i = none → y.shared.own i = finished (fun _ => Call.event) y.log i) ∧
    (∀ i c p, y.current i = some (c, p) →
      (Duo.step kind data.length y (.step i)).isSome ∧ p.Within 7) ∧
    ∀ c o k c' o' k', y.current .producer = some (c, .step o k) →
      y.current .consumer = some (c', .step o' k') → ¬ o.Races o' := by
  have hl := linearizes (T := T) hlt
  have hsound := Gang.sound_of_reaches hl (inv_start kind.Caches hpos) (fun _ => rfl) hr
  obtain ⟨l, hholds, hhistory⟩ := hsound.inv.holds
  refine ⟨⟨l, hholds, hhistory, hhistory.conservation⟩, hsound.idle, fun i c p hi => ⟨?_, ?_⟩, ?_⟩
  · exact hsound.step_isSome hl (hi ▸ Option.some_ne_none _)
  · exact Gang.within_of_reaches (fun _ => within_body kind _) hr i c p hi
  · -- both next accesses are proper, since both calls can be carried on
    intro c o k c' o' k' hp hc
    have hproper := hsound.careful_isSome hl hp
    have hproper' := hsound.careful_isSome hl hc
    rw [Traced.careful] at hproper hproper'
    split at hproper
    · next h =>
      split at hproper'
      · next h' => exact h.not_races h'
      · exact absurd hproper' (by simp)
    · exact absurd hproper (by simp)

/-- Two elements fill the buffer. A third `push` loads the read index and gives up, while a `pop`
goes on; the next one comes as far as its write, with the next `pop` at its read. -/
def overlapRun : List (TeamAction Party (Call Nat)) :=
  [[.call .producer (.push 1)], .replicate 5 (.step .producer),
    [.call .producer (.push 2)], .replicate 5 (.step .producer),
    [.call .consumer .pop], .replicate 4 (.step .consumer),
    [.call .producer (.push 3)], .replicate 3 (.step .producer),
    .replicate 4 (.step .consumer), .replicate 3 (.step .producer),
    [.call .producer (.push 4)], .replicate 5 (.step .producer),
    [.call .consumer .pop], .replicate 2 (.step .consumer)].flatten

/-- The producer is refused while the consumer has not stored the read index yet: at that moment
the buffer is full. -/
theorem ringbuffer_linearizable_overlap : ∃ y : Duo Nat,
    Reaches (Duo.step .ringbuffer2 3) (Gang.Permits Call.Fits) (Duo.start [0, 0, 0]) overlapRun y ∧
    Fifo.accepted y.shared.events = [1, 2] ∧ Fifo.popped y.shared.events = [1] ∧
    y.log = [(.producer, .push 1, .pushed true), (.producer, .push 2, .pushed true),
      (.consumer, .pop, .popped (some 1)), (.producer, .push 3, .pushed false)] ∧
    ∃ l, Circular.Holds (fun i => y.shared.buffer.data[i]?) 3 y.shared.buffer.readIdx
        y.shared.buffer.writeIdx l ∧ Fifo.History 2 y.shared.events l ∧
      Fifo.accepted y.shared.events = Fifo.popped y.shared.events ++ l := by
  have hrun : (follow (Duo.step .ringbuffer2 3) (Duo.start [0, 0, 0]) overlapRun).map
      (fun y => decide (Fifo.accepted y.shared.events = [1, 2] ∧
        Fifo.popped y.shared.events = [1] ∧
        y.log = [(.producer, .push 1, .pushed true), (.producer, .push 2, .pushed true),
          (.consumer, .pop, .popped (some 1)), (.producer, .push 3, .pushed false)])) =
      some true := by
    decide +kernel
  obtain ⟨y, hy, hobs⟩ := Option.map_eq_some_iff.mp hrun
  obtain ⟨haccepted, hpopped, hlog⟩ := of_decide_eq_true hobs
  -- the producer only pushes, and the consumer only pops
  have hfits : ∀ a ∈ overlapRun, Gang.Permits Call.Fits (Duo.start [0]) a := by
    simp [overlapRun, Gang.Permits, Call.Fits]
  have hr : Reaches (Duo.step .ringbuffer2 3) (Gang.Permits Call.Fits) (Duo.start [0, 0, 0])
      overlapRun y := .of_follow hy (along_of_forall hfits _)
  exact ⟨y, hr, haccepted, hpopped, hlog,
    (@ringbuffer_linearizable Nat .ringbuffer2 [0, 0, 0] (by decide) (by decide) _ y hr).1⟩

end Both

end RingBuffer

end PosixIpc
