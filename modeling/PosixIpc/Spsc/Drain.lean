import PosixIpc.Spsc.Bounds

/-!
# Messages a drained queue refuses

An empty queue rests with both indices at some aligned offset `i`. A message of footprint
`T = next_index(0, total_size)` is accepted there if it fits strictly before the end of the buffer,
`i + T < B`, or strictly before the reader when written to the start, `T < i`. The offsets in
between, `B - T ≤ i ≤ T`, refuse it, and they exist exactly if `B ≤ 2 * T`; one of them is `T`
itself, where a fresh queue comes to rest after the message went through once.

`drained_accepts_iff` is that statement over all runs: a legal message is accepted in every
reachable empty state exactly if twice its footprint is below the buffer size, and the same
condition decides whether a producer that retries against a consumer that drains always succeeds.
The largest legal message never satisfies it (`not_fitsTwice_max`): `calc_max_message_size`
admits messages of half the buffer size, before rounding.
-/

namespace PosixIpc

open Framework SPSCQueue SPSCStorage

/-- Two footprints of the message fit strictly inside the buffer. -/
def FitsTwice (q : SPSCQueue) (p : Payload) : Prop :=
  2 * nextIndex 0 (Message.mk p).totalSize < q.bufferSize

instance (q : SPSCQueue) (p : Payload) : Decidable (FitsTwice q p) :=
  inferInstanceAs (Decidable (_ < _))

section FitsTwice

variable {q : SPSCQueue} {B : Nat} {p : Payload}

theorem fitsTwice_iff (hq : Sized q B) (hp : LegalPayload q p) :
    FitsTwice q p ↔ 2 * slot p.length < B := by
  unfold FitsTwice
  rw [nextIndex_zero_totalSize hq hp, hq.bufferSize_eq]

/-- No queue takes its largest legal message twice. -/
theorem not_fitsTwice_max (hq : Sized q B) (hp : LegalPayload q p)
    (hmax : p.length = q.maxPayloadSize) : ¬ FitsTwice q p := by
  rw [fitsTwice_iff hq hp]
  rw [hq.maxPayloadSize_eq] at hmax
  have hslot := lt_slot p.length
  have h8 := hq.mod_eight
  have h16 := hq.sixteen_le
  have hmod := slot_mod p.length
  -- half the buffer, rounded up to a multiple of 8
  omega

end FitsTwice

namespace Session

variable {q : SPSCQueue} {B : Nat} {x y : Session} {front back : List Payload} {p : Payload}

/-! ### Empty states -/

/-- Nothing is unread. -/
def Drained (x : Session) : Prop := x.storage.readIx = x.storage.writeIx

/-- The queue takes `p` now. -/
def Accepts (q : SPSCQueue) (len : Nat) (x : Session) (p : Payload) : Prop :=
  ∃ y, x.apply q len (.enqueue p) = some (.enqueued true, y)

/-- An empty queue at offset `i` takes a message that fits before the end or before `i`. -/
theorem Inv.accepts_of_drained (hq : Sized q B) (h : Inv B x front back) (hp : LegalPayload q p)
    (he : x.Drained)
    (hroom : x.storage.writeIx + slot p.length < B ∨ slot p.length < x.storage.writeIx) :
    Accepts q (256 + B) x p := by
  have hL := h.layout
  have hw := hL.write_lt
  have hw8 := hL.write_mod
  have hB8 := hq.mod_eight
  have hslot := lt_slot p.length
  have hslotB := slot_lt_of_legal hq hp
  have hsame : x.storage.readIx = x.storage.writeIx := he
  have hdec := hq.decision_eq hp (r := x.storage.readIx) hw hw8
  by_cases hend : x.storage.writeIx + slot p.length < B
  · -- before the end
    rw [if_pos hend, if_neg (by omega)] at hdec
    exact ⟨_, apply_enqueue (run_enqueue_inPlace hp.1 hp.2 hdec
      (by change 256 + x.storage.writeIx + 8 + p.length ≤ 256 + B; omega))⟩
  · -- at the start, before the reader
    rw [if_neg hend, if_neg (by omega), if_neg (by omega)] at hdec
    exact ⟨_, apply_enqueue (run_enqueue_wrap hp.1 hp.2 hdec
      (by change 256 + 8 + p.length ≤ 256 + B; omega) (by omega))⟩

/-- An empty queue in between refuses it, and stays as it is. -/
theorem Inv.refuses_of_drained (hq : Sized q B) (h : Inv B x front back) (hp : LegalPayload q p)
    (he : x.Drained) (hend : B ≤ x.storage.writeIx + slot p.length)
    (hread : x.storage.writeIx ≤ slot p.length) :
    x.apply q (256 + B) (.enqueue p) = some (.enqueued false, x) := by
  have hsame : x.storage.readIx = x.storage.writeIx := he
  have hfull := hq.decision_eq hp (r := x.storage.readIx) h.layout.write_lt h.layout.write_mod
  rw [if_neg (by omega), if_neg (by omega), if_pos (by omega)] at hfull
  exact apply_enqueue (run_enqueue_full (by omega) hp.1 hp.2 hfull)

/-- Where twice the footprint fits, every offset takes the message. -/
theorem Inv.accepts_of_fitsTwice (hq : Sized q B) (h : Inv B x front back)
    (hp : LegalPayload q p) (hfit : FitsTwice q p) (he : x.Drained) : Accepts q (256 + B) x p := by
  rw [fitsTwice_iff hq hp] at hfit
  refine h.accepts_of_drained hq hp he ?_
  by_contra hno
  rw [not_or, Nat.not_lt, Nat.not_lt] at hno
  omega

/-! ### A producer that retries -/

/-- The consumer takes out one message, if there is one. -/
def drainOne (q : SPSCQueue) (len : Nat) (x : Session) : Option Session :=
  match x.apply q len .dequeueBegin with
  | some (.viewed v, y) =>
    if v.empty then some y
    else (y.apply q len .dequeueCommit).map Prod.snd
  | _ => none

/-- The producer retries until the message is accepted, and before each further try the consumer
takes out a message. There is no result if `fuel` tries are not enough. -/
def retry (q : SPSCQueue) (len : Nat) (p : Payload) : Nat → Session → Option Session
  | 0, _ => none
  | fuel + 1, x =>
    match x.apply q len (.enqueue p) with
    | some (.enqueued true, y) => some y
    | some (.enqueued false, y) => (drainOne q len y).bind (retry q len p fuel)
    | _ => none

/-- What draining one message does: nothing on an empty queue, else the oldest one is gone. -/
theorem Inv.drainOne (hq : Sized q B) (h : Inv B x front back) :
    (front ++ back = [] ∧ x.drainOne q (256 + B) = some { x with view := none }) ∨
      ∃ y p front' back', x.drainOne q (256 + B) = some y ∧ Inv B y front' back' ∧
        front ++ back = p :: (front' ++ back') := by
  unfold Session.drainOne
  rcases h.dequeueBegin hq with
    ⟨hnil, happly⟩ | ⟨p, rest, back', r', hcat, happly, hst, -, hinv⟩
  · -- an empty view ends the draining
    left
    refine ⟨hnil, ?_⟩
    rw [happly]
    rfl
  · -- a message is shown, and committed
    right
    have hpos := hst.pos
    obtain ⟨p', rest', hf, -, -, -, -, hcommit, hinv'⟩ := hinv.dequeueCommit hq rfl
    obtain ⟨rfl, rfl⟩ := List.cons.inj hf
    refine ⟨_, p, rest, back', ?_, hinv', hcat⟩
    simp only [happly, MessageView.empty, decide_eq_true_eq]
    rw [if_neg (by omega), hcommit]
    rfl

/-- Where twice the footprint fits, as many tries as there are unread messages, and one more, are
enough. -/
theorem Inv.retry_succeeds (hq : Sized q B) (hp : LegalPayload q p) (hfit : FitsTwice q p)
    (h : Inv B x front back) : ∃ y, x.retry q (256 + B) p ((front ++ back).length + 1) = some y := by
  -- by induction on the unread messages: a refused try costs one of them
  generalize hk : (front ++ back).length = k
  induction k generalizing x front back with
  | zero =>
    have hnil := List.eq_nil_of_length_eq_zero hk
    obtain ⟨y, happly⟩ := h.accepts_of_fitsTwice hq hp hfit (h.layout.eq_iff.mpr hnil)
    exact ⟨y, by simp only [retry, happly]⟩
  | succ k ih =>
    rcases h.enqueue hq hp with ⟨hfull, -⟩ | ⟨y, -, -, happly, -⟩
    · -- refused: the queue is not empty, so the consumer takes out a message
      rcases h.drainOne hq with ⟨hnil, -⟩ | ⟨y, p', front', back', hone, hinv, hcat⟩
      · rw [hnil] at hk
        exact absurd hk (by simp)
      · rw [hcat, List.length_cons, Nat.succ.injEq] at hk
        obtain ⟨z, hz⟩ := ih hinv hk
        refine ⟨z, ?_⟩
        rw [retry]
        simp only [hfull, hone, Option.bind_some]
        exact hz
    · exact ⟨y, by simp only [retry, happly]⟩

/-- In an empty state that refuses the message, no number of tries is enough. -/
theorem Inv.retry_fails (hq : Sized q B) (hp : LegalPayload q p) (h : Inv B x [] [])
    (hend : B ≤ x.storage.writeIx + slot p.length) (hread : x.storage.writeIx ≤ slot p.length)
    (k : Nat) : x.retry q (256 + B) p k = none := by
  -- a refused try on an empty queue changes nothing, so all tries are the first one
  induction k generalizing x with
  | zero => rfl
  | succ k ih =>
    have hfull := h.refuses_of_drained hq hp (h.layout.eq_iff.mpr rfl) hend hread
    rcases h.drainOne hq with ⟨-, hone⟩ | ⟨_, _, _, _, _, _, hcat⟩
    · rw [retry]
      simp only [hfull, hone, Option.bind_some]
      exact ih ⟨h.layout, fun _ hn => absurd hn (by simp)⟩ hend hread
    · exact absurd hcat (by simp)

/-- The message goes once through an empty queue whose indices are at the start: the queue is then
empty at the footprint of the message. -/
theorem Inv.once_through (hq : Sized q B) (hp : LegalPayload q p) (h : Inv B x [] [])
    (hw : x.storage.writeIx = 0) :
    ∃ y, Reaches (apply q (256 + B)) (Legal q) x [.enqueue p, .dequeueBegin, .dequeueCommit] y ∧
      Inv B y [] [] ∧ y.storage.writeIx = slot p.length := by
  have hr : x.storage.readIx = 0 := (h.layout.eq_iff.mpr rfl).trans hw
  have hslot := slot_lt_of_legal hq hp
  have hlow := lt_slot p.length
  have hdec := hq.decision_eq hp (r := x.storage.readIx) h.layout.write_lt h.layout.write_mod
  rw [if_pos (by omega), if_neg (by omega)] at hdec
  have hput := apply_enqueue (run_enqueue_inPlace hp.1 hp.2 hdec
    (by change 256 + x.storage.writeIx + 8 + p.length ≤ 256 + B; omega))
  have hnext : nextIndex x.storage.writeIx (Message.mk p).totalSize = slot p.length := by
    rw [hw, nextIndex_zero_totalSize hq hp]
  rw [hnext] at hput
  rcases h.enqueue hq hp with ⟨hfull, -⟩ | ⟨y, front', back', happly, -, -, -, hinv, hkeep, -⟩
  · exact absurd (hfull.symm.trans hput) (by simp)
  obtain ⟨-, rfl⟩ := Prod.mk.inj (Option.some.inj (happly.symm.trans hput))
  have hno : ¬ Overwrites q x.storage p := fun hov => absurd hov.1 (by omega)
  have hcat := hkeep hno
  -- the consumer takes it out again
  rcases hinv.dequeueBegin hq with
    ⟨hnil, -⟩ | ⟨p', rest, back'', r', hcat', hbegin, hst, hend, hinv'⟩
  · rw [hcat] at hnil
    exact absurd hnil (by simp)
  -- the only message is the one that was put in
  have hone : p = p' ∧ rest = [] ∧ back'' = [] := by
    rw [hcat, List.nil_append, List.nil_append, List.cons_append, List.cons.injEq] at hcat'
    obtain ⟨hpp, hrest⟩ := hcat'
    exact ⟨hpp, List.append_eq_nil_iff.mp hrest.symm⟩
  obtain ⟨rfl, rfl, rfl⟩ := hone
  obtain ⟨p'', rest', hf, -, -, -, -, hcommit, hinv''⟩ := hinv'.dequeueCommit hq rfl
  obtain ⟨rfl, rfl⟩ := List.cons.inj hf
  refine ⟨_, .cons hp happly (.cons trivial hbegin (.single rfl hcommit)), hinv'', ?_⟩
  rfl

end Session

open Session

/-- **Acceptance by drained queues.** A legal message is accepted in every reachable empty state
exactly if twice its footprint is below the buffer size; and under the same condition, and no
other, a producer that retries against a draining consumer succeeds from every reachable state. -/
theorem drained_accepts_iff {available : Nat → Bool} {raw : Mem} {n : Nat} {s : SPSCStorage}
    {q : SPSCQueue} (hs : SPSCStorage.create available raw n = .ok s)
    (hq : SPSCQueue.create s = .ok q) {p : Payload} (hp : LegalPayload q p) :
    ((∀ ops x, Reaches (apply q n) (Legal q) (start s) ops x → x.Drained → Accepts q n x p) ↔
        FitsTwice q p) ∧
      ((∀ ops x, Reaches (apply q n) (Legal q) (start s) ops x →
          ∃ fuel y, x.retry q n p fuel = some y) ↔ FitsTwice q p) := by
  obtain ⟨hfresh, hn, hsized⟩ := sized_of_create hs hq
  have hB := hsized.sixteen_le
  have h₀ : Inv (n - 256) (start s) [] [] := by
    rw [hfresh]
    exact Inv.start (by omega) raw
  have hzero : (start s).storage.writeIx = 0 := by rw [hfresh]; rfl
  rw [hn]
  generalize n - 256 = B at *
  -- the state in which both properties fail if two footprints do not fit
  obtain ⟨y, hry, hy, hwy⟩ := h₀.once_through hsized hp hzero
  refine ⟨⟨fun hall => ?_, fun hfit ops x hr he => ?_⟩, ⟨fun hall => ?_, fun hfit ops x hr => ?_⟩⟩
  · -- at the footprint of the message the queue is empty and refuses it
    by_contra hno
    rw [fitsTwice_iff hsized hp, Nat.not_lt] at hno
    have he : y.Drained := hy.layout.eq_iff.mpr rfl
    obtain ⟨z, hz⟩ := hall _ y hry he
    have hfull := hy.refuses_of_drained hsized hp he (by omega) (by omega)
    exact absurd (hfull.symm.trans hz) (by simp)
  · obtain ⟨front, back, hinv⟩ := h₀.reaches hsized hr
    exact hinv.accepts_of_fitsTwice hsized hp hfit he
  · by_contra hno
    rw [fitsTwice_iff hsized hp, Nat.not_lt] at hno
    obtain ⟨fuel, z, hz⟩ := hall _ y hry
    rw [hy.retry_fails hsized hp (by omega) (by omega)] at hz
    exact absurd hz (by simp)
  · obtain ⟨front, back, hinv⟩ := h₀.reaches hsized hr
    exact ⟨_, hinv.retry_succeeds hsized hp hfit⟩

/-- On a buffer of 64 bytes, messages of up to 16 bytes always get through. -/
theorem drained_accepts_iff_sixteen : LegalPayload queue64 (List.replicate 16 1) ∧
    ∀ ops x, Reaches (apply queue64 320) (Legal queue64) (start storage64) ops x →
      x.Drained → Accepts queue64 320 x (List.replicate 16 1) := by
  have hp : LegalPayload queue64 (List.replicate 16 1) := by decide +kernel
  exact ⟨hp, (drained_accepts_iff create_storage64 create_queue64 hp).1.mpr (by decide +kernel)⟩

/-- A storage of 288 bytes, with a buffer of 32: the largest legal payload has 8 bytes, and every
legal message has a footprint of 16. -/
def storage32 : SPSCStorage := SPSCStorage.construct 288 (fun _ => 0)

def queue32 : SPSCQueue := SPSCQueue.construct storage32

/-- After one message of one byte went through a queue with a buffer of 32 bytes, the queue is
empty and refuses the next one. -/
theorem drained_refuses :
    ¬ ∀ (available : Nat → Bool) (raw : Mem) (n : Nat) (s : SPSCStorage) (q : SPSCQueue),
      SPSCStorage.create available raw n = .ok s → SPSCQueue.create s = .ok q →
      ∀ p, LegalPayload q p → ∀ ops x, Reaches (apply q n) (Legal q) (start s) ops x →
        x.Drained → Accepts q n x p := by
  intro h
  have hs : SPSCStorage.create (fun _ => true) (fun _ => 0) 288 = .ok storage32 :=
    SPSCStorage.create_of_available _ (by decide) (by decide) rfl
  have hq : SPSCQueue.create storage32 = .ok queue32 :=
    (SPSCQueue.create_eq_ok_iff (n := 288) rfl (by decide) (by decide)).mpr
      ⟨rfl, by decide, by decide⟩
  -- one message has been put in and taken out again, so both indices stand in the middle
  obtain ⟨x, hx⟩ : ∃ x, follow (apply queue32 288) (start storage32)
      [.enqueue [1], .dequeueBegin, .dequeueCommit] = some x :=
    Option.isSome_iff_exists.mp (by decide +kernel)
  have hstuck : (follow (apply queue32 288) (start storage32)
      [.enqueue [1], .dequeueBegin, .dequeueCommit]).map (fun z =>
        (decide (z.storage.readIx = z.storage.writeIx),
          (z.apply queue32 288 (.enqueue [1])).map Prod.fst)) =
      some (true, some (.enqueued false)) := by
    decide +kernel
  rw [hx, Option.map_some, Option.some.injEq, Prod.mk.injEq, decide_eq_true_eq] at hstuck
  -- while a queue that never blocked would accept the same message
  obtain ⟨y, hy⟩ := h _ _ 288 storage32 queue32 hs hq [1] (by decide +kernel) _ x
    (.of_follow hx (by decide +kernel)) hstuck.1
  rw [hy] at hstuck
  exact absurd hstuck.2 (by simp)

end PosixIpc
