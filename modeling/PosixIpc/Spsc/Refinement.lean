import PosixIpc.Spsc.Session

/-!
# The queue refines a list of messages

`SPSCQueue.contents` maps a storage to the list of messages a reader will find. `Session.Refines`
says that a run of whole operations does to this list what the abstract first-in first-out queue
does: an accepted message is appended, a refused one changes nothing at all, `dequeue_begin` shows
the head, `dequeue_commit` removes it, and `size()` is the length of the list.

A run refines the list exactly if none of its enqueues overwrites (`Inv.refines_iff`). The forward
direction is the interesting one: an accepted message that overwrites leaves a well-formed
buffer, but one whose contents have lost at least one unread message.
-/

namespace PosixIpc

open Framework SPSCQueue SPSCStorage

namespace Op

/-- The payload an operation carries. -/
def payload : Op → Payload
  | .enqueue p => p
  | _ => []

end Op

namespace Session

/-- The bytes the consumer sees through the view it holds. -/
def shown (x : Session) : Payload :=
  match x.view with
  | some v => v.bytes x.storage.buffer
  | none => []

/-- An operation from `x` to `x'`, as an event on the abstract queue. -/
def event (x x' : Session) (o : Op) : Reply → Fifo.Event Payload
  | .enqueued true => .accept o.payload
  | .enqueued false => .refuse
  | .viewed v => .peek (if v.empty then none else some (v.bytes x'.storage.buffer))
  | .committed => .pop x.shown

/-- The events of a run and the session it ends in. -/
def events (q : SPSCQueue) (len : Nat) :
    Session → List Op → Option (List (Fifo.Event Payload) × Session)
  | x, [] => some ([], x)
  | x, o :: os =>
    match x.apply q len o with
    | none => none
    | some (r, x') =>
      match events q len x' os with
      | none => none
      | some (es, y) => some (x.event x' o r :: es, y)

/-- The contents of the queue are `l`, and `size()` is its length. -/
def Shows (q : SPSCQueue) (len : Nat) (x : Session) (l : List Payload) : Prop :=
  q.contents x.storage = some l ∧
    SPSCQueue.size.run (exec len) x.storage = some (l.length, x.storage)

/-- Along the run, the contents of the queue move as the abstract queue does. -/
def Refines (q : SPSCQueue) (len : Nat) : List Payload → Session → List Op → Prop
  | l, x, [] => Shows q len x l
  | l, x, o :: os => Shows q len x l ∧ ∃ r x' l', x.apply q len o = some (r, x') ∧
      Fifo.Step l (x.event x' o r) l' ∧
      (r = .enqueued false → x'.storage = x.storage) ∧ Refines q len l' x' os

variable {q : SPSCQueue} {B len : Nat} {x : Session} {front back : List Payload}

/-- A run that refines the list shows it at its start. -/
theorem Refines.shows {l : List Payload} {ops : List Op} (h : Refines q len l x ops) :
    Shows q len x l := by
  cases ops with
  | nil => exact h
  | cons o os => exact h.1

/-- A refining run is a trace of the abstract queue that ends in the contents of the buffer. -/
theorem Refines.trace {l : List Payload} {ops : List Op} (h : Refines q len l x ops) :
    ∃ es y l', events q len x ops = some (es, y) ∧ q.contents y.storage = some l' ∧
      Fifo.Trace l es l' := by
  induction ops generalizing l x with
  | nil => exact ⟨[], x, l, rfl, h.1, .nil l⟩
  | cons o os ih =>
    obtain ⟨-, r, x', l', happly, hstep, -, hrest⟩ := h
    obtain ⟨es, y, l'', hev, hcont, htrace⟩ := ih hrest
    refine ⟨x.event x' o r :: es, y, l'', ?_, hcont, .cons hstep htrace⟩
    simp only [events, happly, hev]

/-- `size` answers the counter and touches nothing. -/
theorem run_size (hlen : 256 ≤ len) (s : SPSCStorage) :
    SPSCQueue.size.run (exec len) s = some (s.msgCount, s) := by
  have hc : (MemOp.load .msgCount).InBounds len := by
    change 192 + 8 ≤ len; omega
  unfold SPSCQueue.size QProg.load
  rw [Prog.run_step (exec_eq hc (by simp))]
  rfl

/-- What a session of the invariant shows is its list, if the counter counts it. -/
theorem Inv.shows (hq : Sized q B) (h : Inv B x front back)
    (hcount : x.storage.msgCount = (front ++ back).length) :
    Shows q (256 + B) x (front ++ back) :=
  ⟨h.contents_eq hq, by rw [run_size (by omega), hcount]⟩

/-- The contents determine what a run may refine. -/
theorem Inv.eq_of_refines {l : List Payload} {ops : List Op} (hq : Sized q B)
    (h : Inv B x front back) (hr : Refines q (256 + B) l x ops) : l = front ++ back :=
  Option.some.inj (hr.shows.1.symm.trans (h.contents_eq hq))

/-- An operation that moves the contents as the abstract queue does can be peeled off. -/
theorem Inv.refines_cons {x' : Session} {front' back' : List Payload} {o : Op} {r : Reply}
    {ops : List Op} (hq : Sized q B) (h : Inv B x front back)
    (hcount : x.storage.msgCount = (front ++ back).length)
    (happly : x.apply q (256 + B) o = some (r, x')) (h' : Inv B x' front' back')
    (hstep : Fifo.Step (front ++ back) (x.event x' o r) (front' ++ back'))
    (hsame : r = .enqueued false → x'.storage = x.storage) :
    Refines q (256 + B) (front ++ back) x (o :: ops) ↔
      Refines q (256 + B) (front' ++ back') x' ops := by
  constructor
  · rintro ⟨-, r', x'', l', happly', -, -, hrest⟩
    obtain ⟨rfl, rfl⟩ := Prod.mk.inj (Option.some.inj (happly.symm.trans happly'))
    -- the contents of the next session are what the run goes on with
    rw [← h'.eq_of_refines hq hrest]
    exact hrest
  · intro hrest
    exact ⟨h.shows hq hcount, r, x', front' ++ back', happly, hstep, hsame, hrest⟩

/-! ### One operation -/

/-- The operation moves the contents `l` as the abstract queue does, and is counted. -/
def Simulates (q : SPSCQueue) (B : Nat) (l : List Payload) (x : Session) (o : Op) : Prop :=
  ∃ r x' front' back', x.apply q (256 + B) o = some (r, x') ∧ Inv B x' front' back' ∧
    x'.storage.msgCount = (front' ++ back').length ∧
    Fifo.Step l (x.event x' o r) (front' ++ back') ∧ (r = .enqueued false → x'.storage = x.storage)

/-- An enqueue that does not overwrite is refused or appends. -/
theorem Inv.simulates_enqueue (hq : Sized q B) (h : Inv B x front back)
    (hcount : x.storage.msgCount = (front ++ back).length) {p : Payload} (hp : LegalPayload q p)
    (hno : ¬ Overwrites q x.storage p) : Simulates q B (front ++ back) x (.enqueue p) := by
  have hlen := h.layout.length_lt
  have hlt := hq.lt
  rcases h.enqueue hq hp with
    ⟨hfull, -⟩ | ⟨x', front', back', happly, -, -, hcnt, hinv, hkeep, -⟩
  · exact ⟨_, x, front, back, hfull, h, hcount, .refuse _, fun _ => rfl⟩
  · have hcat := hkeep hno
    refine ⟨_, x', front', back', happly, hinv, ?_, ?_, fun hr => absurd hr (by simp)⟩
    · rw [hcnt, hcount, hcat, addW_eq (by omega)]
      rw [← List.length_singleton (a := p), ← List.length_append]
    · rw [hcat]
      exact .accept _ p

/-- A look moves nothing: it shows the head, or that there is none. -/
theorem Inv.simulates_dequeueBegin (hq : Sized q B) (h : Inv B x front back)
    (hcount : x.storage.msgCount = (front ++ back).length) :
    Simulates q B (front ++ back) x .dequeueBegin := by
  rcases h.dequeueBegin hq with
    ⟨hnil, happly⟩ | ⟨p, rest, back', r', hcat, happly, hst, -, hinv⟩
  · have hinv : Inv B { x with view := none } front back :=
      ⟨h.layout, fun _ hn => absurd hn (by simp)⟩
    refine ⟨_, _, front, back, happly, hinv, hcount, ?_, fun hr => absurd hr (by simp)⟩
    rw [hnil]
    exact .peek []
  · have hpos := hst.pos
    refine ⟨_, _, p :: rest, back', happly, hinv, by rw [← hcat]; exact hcount, ?_,
      fun hr => absurd hr (by simp)⟩
    -- the view shows the bytes of the oldest message
    have hshown : (x.event
        ⟨{ x.storage with readIx := r' }, some ⟨some (r' + 8), p.length, r'⟩⟩
        .dequeueBegin (.viewed ⟨some (r' + 8), p.length, r'⟩)) =
        .peek (p :: rest ++ back').head? := by
      unfold event MessageView.empty MessageView.bytes
      simp only [decide_eq_true_eq, hst.bytes]
      rw [if_neg (by omega)]
      rfl
    rw [hshown, hcat]
    exact .peek _

/-- A commit removes the message the consumer was shown. -/
theorem Inv.simulates_dequeueCommit (hq : Sized q B) (h : Inv B x front back)
    (hcount : x.storage.msgCount = (front ++ back).length) {v : MessageView}
    (hv : x.view = some v) : Simulates q B (front ++ back) x .dequeueCommit := by
  have hlen := h.layout.length_lt
  have hlt := hq.lt
  obtain ⟨p, rest, hf, hbytes, -, -, -, happly, hinv⟩ := h.dequeueCommit hq hv
  refine ⟨_, _, rest, back, happly, hinv, ?_, ?_, fun hr => absurd hr (by simp)⟩
  · -- the counter is at least one, so taking one off it does not wrap
    change subW x.storage.msgCount 1 = _
    rw [hf, List.cons_append, List.length_cons] at hcount hlen
    rw [hcount, subW_eq (by omega) (by omega)]
    omega
  · have hshown : x.shown = p := by
      unfold shown
      rw [hv]
      exact hbytes
    unfold event
    rw [hshown, hf]
    exact .pop p _

/-- **One operation** that is legal and does not overwrite. -/
theorem Inv.simulates (hq : Sized q B) (h : Inv B x front back)
    (hcount : x.storage.msgCount = (front ++ back).length) {o : Op} (hl : Legal q x o)
    (hk : KeepsUnread q x o) : Simulates q B (front ++ back) x o := by
  cases o with
  | enqueue p => exact h.simulates_enqueue hq hcount hl hk
  | dequeueBegin => exact h.simulates_dequeueBegin hq hcount
  | dequeueCommit =>
    obtain ⟨v, hv⟩ := Option.isSome_iff_exists.mp hl
    exact h.simulates_dequeueCommit hq hcount hv

/-- An enqueue that overwrites is accepted with unread messages gone: the contents are too short. -/
theorem Inv.not_refines_of_overwrites (hq : Sized q B) (h : Inv B x front back) {p : Payload}
    {ops : List Op} (hp : LegalPayload q p) (hov : Overwrites q x.storage p) :
    ¬ Refines q (256 + B) (front ++ back) x (.enqueue p :: ops) := by
  rintro ⟨-, r, x'', l', happly', hstep, -, hrest⟩
  rcases h.enqueue hq hp with ⟨-, hno⟩ | ⟨x', front', back', happly, -, -, -, hinv, -, hover⟩
  · exact hno hov
  · obtain ⟨p', hf, hb, hne⟩ := hover hov
    obtain ⟨rfl, rfl⟩ := Prod.mk.inj (Option.some.inj (happly.symm.trans happly'))
    have hl' := hinv.eq_of_refines hq hrest
    have hlong : l' = front ++ back ++ [p] := Fifo.Step.eq_of_accept hstep
    have hlength := congrArg List.length (hl'.symm.trans hlong)
    have hpos := List.length_pos_iff.mpr hne
    simp only [hf, hb, List.length_append, List.length_cons, List.length_nil] at hlength
    omega

/-- **Refinement, exactly.** From a session that holds `front ++ back`, a legal run refines the
list exactly if none of its enqueues overwrites. -/
theorem Inv.refines_iff (hq : Sized q B) {ops : List Op} (h : Inv B x front back)
    (hcount : x.storage.msgCount = (front ++ back).length)
    (hlegal : Along (apply q (256 + B)) (Legal q) x ops) :
    Refines q (256 + B) (front ++ back) x ops ↔
      Along (apply q (256 + B)) (KeepsUnread q) x ops := by
  induction ops generalizing x front back with
  | nil => exact ⟨fun _ => trivial, fun _ => h.shows hq hcount⟩
  | cons o os ih =>
    obtain ⟨hlo, hlrest⟩ := hlegal
    by_cases hk : KeepsUnread q x o
    · -- both sides go on with the rest of the run
      obtain ⟨r, x', front', back', happly, hinv, hcnt, hstep, hsame⟩ := h.simulates hq hcount hlo hk
      rw [along_cons_iff happly, h.refines_cons hq hcount happly hinv hstep hsame,
        ih hinv hcnt (hlrest _ _ happly)]
      exact ⟨fun hrest => ⟨hk, hrest⟩, And.right⟩
    · -- and only an enqueue can overwrite
      refine iff_of_false ?_ fun hkeep => hk hkeep.1
      cases o with
      | enqueue p => exact h.not_refines_of_overwrites hq hlo (Classical.not_not.mp hk)
      | dequeueBegin => exact absurd trivial hk
      | dequeueCommit => exact absurd trivial hk

end Session

/-! ### Runs from a fresh storage -/

open Session

/-- **FIFO refinement.** On a fresh storage of an accepted size, a legal run refines the list of
messages exactly if none of its enqueues wraps while the write index is behind the read index; and
then what was accepted is what was removed followed by what is still in the queue. -/
theorem fifo_refinement_iff {available : Nat → Bool} {raw : Mem} {n : Nat} {s : SPSCStorage}
    {q : SPSCQueue} (hs : SPSCStorage.create available raw n = .ok s)
    (hq : SPSCQueue.create s = .ok q) {ops : List Op}
    (hops : Along (apply q n) (Legal q) (start s) ops) :
    (Refines q n [] (start s) ops ↔ Along (apply q n) (KeepsUnread q) (start s) ops) ∧
      (Along (apply q n) (KeepsUnread q) (start s) ops →
        ∃ es y l, events q n (start s) ops = some (es, y) ∧ q.contents y.storage = some l ∧
          Fifo.accepted es = Fifo.popped es ++ l) := by
  obtain ⟨hfresh, hn, hsized⟩ := sized_of_create hs hq
  subst hfresh
  have hB := hsized.sixteen_le
  have hiff : Refines q n [] (start (SPSCStorage.construct n raw)) ops ↔
      Along (apply q n) (KeepsUnread q) (start (SPSCStorage.construct n raw)) ops := by
    rw [hn] at hops ⊢
    exact (Inv.start (by omega) raw).refines_iff hsized rfl hops
  -- a refining run comes with a trace of the list, which conserves the messages
  refine ⟨hiff, fun hkeep => ?_⟩
  obtain ⟨es, y, l, hev, hcont, htrace⟩ := (hiff.mpr hkeep).trace
  exact ⟨es, y, l, hev, hcont, htrace.conservation⟩

/-- A storage of 320 bytes: a buffer of 64. -/
def storage64 : SPSCStorage := SPSCStorage.construct 320 (fun _ => 0)

def queue64 : SPSCQueue := SPSCQueue.construct storage64

/-- A storage of 320 bytes is created. -/
theorem create_storage64 :
    SPSCStorage.create (fun _ => true) (fun _ => 0) 320 = .ok storage64 :=
  SPSCStorage.create_of_available _ (by decide) (by decide) rfl

/-- Its queue has a buffer of 64 bytes. -/
theorem create_queue64 : SPSCQueue.create storage64 = .ok queue64 :=
  (SPSCQueue.create_eq_ok_iff (n := 320) rfl (by decide) (by decide)).mpr
    ⟨rfl, by decide, by decide⟩

/-- Two messages are written and read, which leaves both indices at 48; the third wraps to the
start of the buffer and leaves the write index at 32, behind the read index. The fourth neither
fits before the end nor reaches the reader from the start. -/
def losingRun : List Op :=
  [.enqueue (List.replicate 16 1), .enqueue (List.replicate 16 2),
   .dequeueBegin, .dequeueCommit, .dequeueBegin, .dequeueCommit,
   .enqueue (List.replicate 24 3), .enqueue (List.replicate 24 4)]

/-- Up to the message that wraps, the run refines the list. -/
theorem fifo_refinement_iff_wrapping :
    Refines queue64 320 [] (start storage64) (losingRun.take 7) :=
  (fifo_refinement_iff create_storage64 create_queue64 (by decide +kernel)).1.mpr
    (by decide +kernel)

/-- The third of four accepted messages is lost: four are accepted, two removed, one is left. -/
theorem fifo_refinement_fails :
    ¬ ∀ (available : Nat → Bool) (raw : Mem) (n : Nat) (s : SPSCStorage) (q : SPSCQueue),
      SPSCStorage.create available raw n = .ok s → SPSCQueue.create s = .ok q →
      ∀ ops, Along (apply q n) (Legal q) (start s) ops → Refines q n [] (start s) ops := by
  intro h
  have hlegal : Along (apply queue64 320) (Legal queue64) (start storage64) losingRun := by
    decide +kernel
  have hrun := h _ _ 320 storage64 queue64 create_storage64 create_queue64 losingRun hlegal
  obtain ⟨es, y, l, hev, hcont, htrace⟩ := hrun.trace
  have hcounts : (events queue64 320 (start storage64) losingRun).map (fun z =>
      ((Fifo.accepted z.1).length, (Fifo.popped z.1).length,
        (queue64.contents z.2.storage).map List.length)) = some (4, 2, some 1) := by
    decide +kernel
  rw [hev, Option.map_some, hcont, Option.map_some] at hcounts
  -- the abstract queue conserves messages, the run does not
  have hsum := congrArg List.length htrace.conservation
  simp only [Option.some.injEq, Prod.mk.injEq] at hcounts
  rw [List.nil_append, List.length_append, hcounts.1, hcounts.2.1, hcounts.2.2] at hsum
  exact absurd hsum (by decide)

end PosixIpc
