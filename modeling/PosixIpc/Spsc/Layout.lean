import PosixIpc.Spsc.Whole

/-!
# How messages lie in the ring buffer

The unread messages occupy the buffer in one of two shapes, described by `Layout B m r w front back`
for a buffer of `B` bytes with read index `r` and write index `w`.

* *flat* (`r ≤ w`): the messages `front` lie back to back from `r` to `w`;
* *wrapped* (`w < r`): the messages `front` lie from `r` to a zero-size sentinel at some `e < B`,
  and the messages `back`, at least one, lie from `0` to `w`.

`Chain m a ps b` is the back-to-back part: starting at `a` and following the headers through `ps`
leads to `b`. The abstract contents of the queue are `front ++ back`.

The module describes what can happen to a layout, in terms of the buffer alone: a write outside
the occupied bytes (`Layout.of_agree`), a message stored at the write index (`Layout.append`) or
at the start of the buffer behind a sentinel (`Layout.wrap`), the reader passing a message
(`Layout.pop`) or the sentinel (`Layout.skip`). A message stored at the start of the buffer while
the layout is already wrapped takes the place of `back` (`Layout.overwrite`): the shape is intact,
the messages in `back` are gone.
-/

namespace PosixIpc

open Framework SPSCQueue

/-- Payload bytes of a message. -/
abbrev Payload := List UInt8

/-! ### Chains of messages -/

/-- A message with payload `p` is stored at offset `i`. -/
structure Stored (m : Mem) (i : Nat) (p : Payload) : Prop where
  pos : 0 < p.length
  header : m.readWord i = p.length
  bytes : m.read (i + 8) p.length = p

/-- The messages `ps` are stored back to back from `a` to `b`. -/
def Chain (m : Mem) : Nat → List Payload → Nat → Prop
  | a, [], b => a = b
  | a, p :: ps, b => Stored m a p ∧ Chain m (a + slot p.length) ps b

/-- A message is stored as long as the bytes of its slot stay. -/
theorem Stored.of_agree {m m' : Mem} {i : Nat} {p : Payload} (h : Stored m i p)
    (hag : Mem.Agree m m' i (i + slot p.length)) : Stored m' i p := by
  have hslot := lt_slot p.length
  refine ⟨h.pos, ?_, ?_⟩
  · rw [← hag.readWord (le_refl i) (by omega), h.header]
  · rw [← hag.read (by omega) (by omega), h.bytes]

namespace Chain

variable {m m' : Mem} {a b : Nat} {ps : List Payload}

/-- Every message takes up at least 16 bytes. -/
theorem length_le (h : Chain m a ps b) : a + 16 * ps.length ≤ b := by
  induction ps generalizing a with
  | nil => exact Nat.le_of_eq h
  | cons p ps ih =>
    have hslot := sixteen_le_slot h.1.pos
    have htail := ih h.2
    rw [List.length_cons]
    omega

theorem le (h : Chain m a ps b) : a ≤ b := by
  have hlen := h.length_le
  omega

theorem mod_eight (h : Chain m a ps b) (ha : a % 8 = 0) : b % 8 = 0 := by
  induction ps generalizing a with
  | nil => rw [← show a = b from h]; exact ha
  | cons p ps ih =>
    refine ih h.2 ?_
    have hslot := slot_mod p.length
    omega

/-- A chain only depends on the bytes it covers. -/
theorem of_agree (h : Chain m a ps b) (hag : Mem.Agree m m' a b) : Chain m' a ps b := by
  induction ps generalizing a with
  | nil => exact h
  | cons p ps ih =>
    have hle := le h.2
    exact ⟨h.1.of_agree (hag.mono (le_refl a) hle),
      ih h.2 (hag.mono (Nat.le_add_right a _) (le_refl b))⟩

/-- A chain grows at its end. -/
theorem snoc {p : Payload} (h : Chain m a ps b) (hp : Stored m b p) :
    Chain m a (ps ++ [p]) (b + slot p.length) := by
  induction ps generalizing a with
  | nil =>
    obtain rfl : a = b := h
    exact ⟨hp, rfl⟩
  | cons p' ps ih => exact ⟨h.1, ih h.2⟩

end Chain

/-! ### The two shapes -/

/-- The unread messages `front ++ back` in a buffer of `B` bytes. -/
inductive Layout (B : Nat) (m : Mem) (r w : Nat) : List Payload → List Payload → Prop where
  | flat {front : List Payload} (hrw : r ≤ w) (hw : w < B) (hr8 : r % 8 = 0)
      (h : Chain m r front w) : Layout B m r w front []
  | wrapped {front back : List Payload} {e : Nat} (hwr : w < r) (he : e < B) (hr8 : r % 8 = 0)
      (hfront : Chain m r front e) (hsent : m.readWord e = 0) (hne : back ≠ [])
      (hback : Chain m 0 back w) : Layout B m r w front back

namespace Layout

variable {B r w : Nat} {m m' : Mem} {front back : List Payload} {p : Payload}

/-- A fresh queue: both indices at the start of the buffer. -/
theorem fresh (hB : 0 < B) (m : Mem) : Layout B m 0 0 [] [] :=
  .flat (le_refl 0) hB rfl rfl

/-! Bounds and alignment of the indices. -/

theorem read_lt (h : Layout B m r w front back) : r < B := by
  cases h with
  | flat hrw hw => omega
  | wrapped hwr he hr8 hfront => have := hfront.le; omega

theorem write_lt (h : Layout B m r w front back) : w < B := by
  cases h with
  | flat hrw hw => exact hw
  | wrapped hwr he hr8 hfront => have := hfront.le; omega

theorem read_mod (h : Layout B m r w front back) : r % 8 = 0 := by
  cases h with
  | flat _ _ hr8 => exact hr8
  | wrapped _ _ hr8 => exact hr8

theorem write_mod (h : Layout B m r w front back) : w % 8 = 0 := by
  cases h with
  | flat _ _ hr8 hc => exact hc.mod_eight hr8
  | wrapped _ _ _ _ _ _ hback => exact hback.mod_eight rfl

/-- Every unread message takes up at least 16 bytes of the buffer. -/
theorem length_lt (h : Layout B m r w front back) :
    16 * (front ++ back).length < B := by
  rw [List.length_append]
  cases h with
  | flat hrw hw hr8 hc =>
    have hlen := hc.length_le
    rw [List.length_nil]
    omega
  | wrapped hwr he hr8 hfront hsent hne hback =>
    -- `back` ends before the reader and `front` begins there
    have h₁ := hfront.length_le
    have h₂ := hback.length_le
    omega

/-- The indices are equal exactly when nothing is unread. -/
theorem eq_iff (h : Layout B m r w front back) : r = w ↔ front ++ back = [] := by
  cases h with
  | flat hrw hw hr8 hc =>
    rw [List.append_nil]
    constructor
    · intro heq
      -- a message between equal indices would have no room
      have hlen := hc.length_le
      exact List.length_eq_zero_iff.mp (by omega)
    · intro hnil
      rw [hnil] at hc
      exact hc
  | wrapped hwr he hr8 hfront hsent hne hback =>
    refine ⟨fun heq => absurd heq (by omega), fun hnil => absurd ?_ hne⟩
    exact (List.append_eq_nil_iff.mp hnil).2

/-- Behind the write index nothing is left exactly in the flat shape. -/
theorem back_eq_nil_iff (h : Layout B m r w front back) : back = [] ↔ r ≤ w := by
  cases h with
  | flat hrw => exact ⟨fun _ => hrw, fun _ => rfl⟩
  | wrapped hwr _ _ _ _ hne =>
    exact ⟨fun hb => absurd hb hne, fun hle => absurd hle (by omega)⟩

/-! ### Writes -/

/-- Writes outside the occupied bytes leave the layout alone: in the flat shape those are
`[r, w)`, in the wrapped shape everything but `[w, r)`. -/
theorem of_agree (h : Layout B m r w front back) (hB : B % 8 = 0)
    (hflat : r ≤ w → Mem.Agree m m' r w)
    (hwrap : w < r → Mem.Agree m m' r B ∧ Mem.Agree m m' 0 w) :
    Layout B m' r w front back := by
  cases h with
  | flat hrw hw hr8 hc => exact .flat hrw hw hr8 (hc.of_agree (hflat hrw))
  | wrapped hwr he hr8 hfront hsent hne hback =>
    obtain ⟨hhigh, hlow⟩ := hwrap hwr
    have he8 := hfront.mod_eight hr8
    refine .wrapped hwr he hr8 (hfront.of_agree (hhigh.mono (le_refl r) (by omega))) ?_ hne
      (hback.of_agree hlow)
    -- the sentinel ends inside the buffer, both being aligned
    rw [← hhigh.readWord hfront.le (by omega)]
    exact hsent

/-- **Append.** A message stored at the write index, clear of the buffer end and of the reader,
becomes the youngest one when the write index moves past it. -/
theorem append (h : Layout B m r w front back) (hp : Stored m w p)
    (hend : w + slot p.length < B) (hread : w < r → w + slot p.length < r) :
    ∃ front' back', Layout B m r (w + slot p.length) front' back' ∧ front <+: front' ∧
      front' ++ back' = front ++ back ++ [p] := by
  cases h with
  | flat hrw hw hr8 hc =>
    -- flat: the message extends `front`
    exact ⟨front ++ [p], [], .flat (by omega) hend hr8 (hc.snoc hp),
      List.prefix_append front [p], by simp⟩
  | wrapped hwr he hr8 hfront hsent hne hback =>
    -- wrapped: it extends `back`, which must stay short of the reader
    exact ⟨front, back ++ [p],
      .wrapped (hread hwr) he hr8 hfront hsent (by simp) (hback.snoc hp),
      List.prefix_refl front, by simp⟩

/-- **Wrap.** In the flat shape, a message stored at the start of the buffer, clear of the reader,
with a sentinel at the write index. -/
theorem wrap (h : Layout B m r w front back) (hrw : r ≤ w) (hp : Stored m 0 p)
    (hsent : m.readWord w = 0) (hread : slot p.length < r) :
    Layout B m r (slot p.length) front [p] := by
  cases h with
  | flat _ hw hr8 hc =>
    refine .wrapped hread hw hr8 hc hsent (by simp) ⟨hp, ?_⟩
    exact Nat.zero_add _
  | wrapped hwr => omega

/-- **Overwrite.** In the wrapped shape, a message stored at the start of the buffer replaces all
of `back`: the write index now ends the new message, and `front` still leads to its sentinel. -/
theorem overwrite (h : Layout B m r w front back) (hB : B % 8 = 0) (hwr : w < r)
    (hag : Mem.Agree m m' r B) (hp : Stored m' 0 p) (hread : slot p.length < r) :
    Layout B m' r (slot p.length) front [p] ∧ back ≠ [] := by
  cases h with
  | flat hrw => omega
  | wrapped _ he hr8 hfront hsent hne hback =>
    have he8 := hfront.mod_eight hr8
    refine ⟨.wrapped hread he hr8 (hfront.of_agree (hag.mono (le_refl r) (by omega))) ?_
      (by simp) ⟨hp, Nat.zero_add _⟩, hne⟩
    -- the sentinel of `front` is above the reader and survives
    rw [← hag.readWord hfront.le (by omega)]
    exact hsent

/-! ### Reads -/

/-- The reader stands at a message or, in the wrapped shape, at the sentinel. -/
theorem at_reader (h : Layout B m r w front back) (hne : r ≠ w) :
    (∃ p rest, front = p :: rest ∧ Stored m r p ∧ r + slot p.length < B) ∨
      (front = [] ∧ w < r ∧ m.readWord r = 0) := by
  cases h with
  | flat hrw hw hr8 hc =>
    cases front with
    | nil => exact absurd hc hne
    | cons p rest =>
      have hle := hc.2.le
      exact .inl ⟨p, rest, rfl, hc.1, by omega⟩
  | wrapped hwr he hr8 hfront hsent hneb hback =>
    cases front with
    | nil =>
      -- `front` is used up: the reader has come to the sentinel
      obtain rfl := hfront
      exact .inr ⟨rfl, hwr, hsent⟩
    | cons p rest =>
      have hle := hfront.2.le
      exact .inl ⟨p, rest, rfl, hfront.1, by omega⟩

/-- The oldest message is stored at the reader. -/
theorem stored {rest : List Payload} (h : Layout B m r w (p :: rest) back) : Stored m r p := by
  cases h with
  | flat hrw hw hr8 hc => exact hc.1
  | wrapped hwr he hr8 hfront => exact hfront.1

/-- **Pop.** The reader moves past the message it stands at. -/
theorem pop {rest : List Payload} (h : Layout B m r w (p :: rest) back) :
    Layout B m (r + slot p.length) w rest back := by
  have hs8 := slot_mod p.length
  cases h with
  | flat hrw hw hr8 hc => exact .flat hc.2.le hw (by omega) hc.2
  | wrapped hwr he hr8 hfront hsent hneb hback =>
    exact .wrapped (by omega) he (by omega) hfront.2 hsent hneb hback

/-- **Skip.** The reader jumps from the sentinel to the start of the buffer, and the layout is
flat again. -/
theorem skip (h : Layout B m r w [] back) (hwr : w < r) : Layout B m 0 w back [] := by
  have hw := h.write_lt
  cases h with
  | flat hrw => omega
  | wrapped _ _ _ _ _ _ hback => exact .flat (Nat.zero_le w) hw rfl hback

end Layout

/-! ### Storing a message -/

/-- Payload and header written at `i` store a message there. -/
theorem stored_writeMessage {msg : Message} (hpos : 0 < msg.size) (hlt : msg.size < 2 ^ 64)
    (s : SPSCStorage) (i : Nat) : Stored (s.writeMessage i msg).buffer i msg.payload := by
  refine ⟨hpos, Mem.readWord_write_toLE _ _ hlt, ?_⟩
  change ((s.buffer.write (i + 8) msg.payload).write i (toLE 8 msg.size)).read (i + 8)
    msg.payload.length = msg.payload
  rw [Mem.read_write_of_disjoint (by rw [length_toLE]; omega), Mem.read_write_same]

/-- Storing a message at `i` changes nothing outside its slot. -/
theorem agree_writeMessage (s : SPSCStorage) (i : Nat) (msg : Message) {a b : Nat}
    (h : b ≤ i ∨ i + slot msg.size ≤ a) :
    Mem.Agree s.buffer (s.writeMessage i msg).buffer a b := by
  have hslot := lt_slot msg.size
  -- payload and header both lie inside the slot
  have hpay : b ≤ i + 8 ∨ i + 8 + msg.payload.length ≤ a := by
    change b ≤ i + 8 ∨ i + 8 + msg.size ≤ a
    omega
  have hhead : b ≤ i ∨ i + (toLE 8 msg.size).length ≤ a := by
    rw [length_toLE]
    omega
  exact (Mem.agree_write hpay).trans (Mem.agree_write hhead)

/-- A sentinel at `i` changes nothing outside its 8 bytes. -/
theorem agree_writeSentinel (s : SPSCStorage) (i : Nat) {a b : Nat} (h : b ≤ i ∨ i + 8 ≤ a) :
    Mem.Agree s.buffer (s.writeSentinel i).buffer a b :=
  Mem.agree_write (by rw [List.length_replicate]; exact h)

section WrapWrites

variable {B : Nat} {s : SPSCStorage} {front back : List Payload} {p : Payload}

/-- The writes of the wrap branch away from the start of the buffer and the write index. -/
theorem agree_wrapWrites {a b : Nat} (h₀ : slot p.length ≤ a)
    (hw : b ≤ s.writeIx ∨ s.writeIx + 8 ≤ a) :
    Mem.Agree s.buffer ((s.writeMessage 0 ⟨p⟩).writeSentinel s.writeIx).buffer a b :=
  (agree_writeMessage s 0 ⟨p⟩ (.inr (by simpa using h₀))).trans (agree_writeSentinel _ _ hw)

/-- **The wrap branch in the flat shape.** -/
theorem Layout.wrapWrites (h : Layout B s.buffer s.readIx s.writeIx front back)
    (hB : B % 8 = 0) (hpos : 0 < p.length) (hlt : p.length < 2 ^ 64)
    (hrw : s.readIx ≤ s.writeIx) (hread : slot p.length < s.readIx) :
    Layout B ((s.writeMessage 0 ⟨p⟩).writeSentinel s.writeIx).buffer s.readIx (slot p.length)
      front [p] := by
  have hlay := h.of_agree hB (fun _ => agree_wrapWrites (p := p) (by omega) (.inl (le_refl _)))
    (fun hwr => absurd hwr (by omega))
  -- the message ends before the sentinel begins
  have hst : Stored ((s.writeMessage 0 ⟨p⟩).writeSentinel s.writeIx).buffer 0 p :=
    (@stored_writeMessage ⟨p⟩ hpos hlt s 0).of_agree
      (agree_writeSentinel _ _ (.inl (by simp only; omega)))
  exact hlay.wrap hrw hst (Mem.readWord_write_zero _ _) hread

/-- **The wrap branch in the wrapped shape.** The unread messages from the start of the buffer on
are replaced by the new one, whose last bytes the sentinel may have cleared. -/
theorem Layout.overwriteWrites (h : Layout B s.buffer s.readIx s.writeIx front back)
    (hB : B % 8 = 0) (hpos : 0 < p.length) (hlt : p.length < 2 ^ 64)
    (hwr : s.writeIx + 8 < s.readIx) (hread : slot p.length < s.readIx) :
    ∃ p', p'.length = p.length ∧ back ≠ [] ∧
      Layout B ((s.writeMessage 0 ⟨p⟩).writeSentinel s.writeIx).buffer s.readIx (slot p.length)
        front [p'] := by
  set m' := ((s.writeMessage 0 ⟨p⟩).writeSentinel s.writeIx).buffer with hm'
  have hag : Mem.Agree s.buffer m' s.readIx B :=
    agree_wrapWrites (by omega) (.inr (by omega))
  have hback : back ≠ [] := fun hb => by
    have := h.back_eq_nil_iff.mp hb
    omega
  -- a wrapped layout has a message before the write index, so the sentinel misses the header
  have hw : 16 ≤ s.writeIx := by
    cases h with
    | flat hrw => omega
    | wrapped _ _ _ _ _ hne hbk =>
      have hlen := hbk.length_le
      have hcons := List.length_pos_iff.mpr hne
      omega
  have hhead : m'.readWord 0 = p.length := by
    rw [hm', ← (agree_writeSentinel _ _ (.inl hw)).readWord (Nat.zero_le 0) (by omega)]
    exact (@stored_writeMessage ⟨p⟩ hpos hlt s 0).header
  -- the payload is whatever the sentinel has left of it
  refine ⟨m'.read 8 p.length, Mem.length_read _ _ _, hback, ?_⟩
  have hst : Stored m' 0 (m'.read 8 p.length) := by
    refine ⟨?_, ?_, ?_⟩
    · rw [Mem.length_read]; exact hpos
    · rw [Mem.length_read]; exact hhead
    · rw [Mem.length_read]
  have hres := (h.overwrite hB (by omega) hag hst (by rw [Mem.length_read]; exact hread)).1
  rw [Mem.length_read] at hres
  exact hres

end WrapWrites

end PosixIpc
