import Mathlib.Data.List.Forall2
import PosixIpc.PubSub.Hub

/-!
# One message to all publishers

`Publishing w p q m`: publisher `p` has its queue `q` on the segment of the mapping `m`. Publishers
whose names stand for different objects are on different segments, because a segment remembers the
object it was created as. `publishAll` therefore works on each segment for itself
(`publishAll_spec`): what it leaves in the segment of a publisher is what one `enqueue` on the
storage that was there leaves, and nothing else changes.

`run_through` is the step from pointers to storages: a queue operation through a pointer does to the
segment behind it what it does to a storage.
-/

namespace PosixIpc

open Framework

/-! ### Operations through a pointer -/

/-- The storage in segment `i` is replaced by `s`, and everything else is as it was. -/
structure Stores (i : Nat) (s : SPSCStorage) (w w' : World) : Prop where
  names : w'.kernel.names = w.kernel.names
  next : w'.kernel.next = w.kernel.next
  process : w'.process = w.process
  others : ∀ j, j ≠ i → w'.kernel.segments j = w.kernel.segments j
  name : (w'.kernel.segments i).name = (w.kernel.segments i).name
  size : (w'.kernel.segments i).size = (w.kernel.segments i).size
  storage : (w'.kernel.segments i).storage = s

namespace Stores

variable {i : Nat} {s s' : SPSCStorage} {w w' w'' : World}

theorem refl (i : Nat) (w : World) : Stores i (w.kernel.segments i).storage w w :=
  ⟨rfl, rfl, rfl, fun _ _ => rfl, rfl, rfl, rfl⟩

theorem trans (h : Stores i s w w') (h' : Stores i s' w' w'') : Stores i s' w w'' :=
  ⟨h'.names.trans h.names, h'.next.trans h.next, h'.process.trans h.process,
    fun j hj => (h'.others j hj).trans (h.others j hj), h'.name.trans h.name, h'.size.trans h.size,
    h'.storage⟩

/-- Writing a storage over a segment. -/
theorem setBytes (hs : s.InRange) (w : World) :
    Stores i s w ⟨w.kernel.setBytes i (s.toBytes (w.kernel.segments i).bytes), w.process,
      w.calls⟩ := by
  -- only the bytes of segment `i` are written
  refine ⟨rfl, rfl, rfl, fun j hj => if_neg hj, ?_, ?_, ?_⟩
  · exact (congrArg Segment.name (if_pos rfl)).trans rfl
  · exact (congrArg Segment.size (if_pos rfl)).trans rfl
  · exact (congrArg Segment.storage (if_pos rfl)).trans (SPSCStorage.ofBytes_toBytes hs _)

end Stores

/-- An operation on a storage leaves the room there was. -/
theorem World.Roomy.of_stores {env : Env} {i : Nat} {s : SPSCStorage} {w w' : World}
    (hw : w.Roomy env) (hst : Stores i s w w') : w'.Roomy env := by
  refine ⟨fun j hj => ?_, by rw [hst.process]; exact hw.mappings⟩
  rw [hst.next] at hj
  by_cases hji : j = i
  · rw [hji] at hj ⊢
    rw [hst.size]
    exact hw.within i hj
  · rw [hst.others j hji]
    exact hw.within j hj

/-- **Operations through a pointer** do to the segment what they do to a storage. -/
theorem run_through {env : Env} {ptr : Nat} {m : Mapping} {α : Type} {p : QProg α} {V : α → Prop}
    (hfits : p.All MemOp.Fits V) {w w' : World} {a : α} (hm : w.process.mappingAt ptr = some m)
    (h : (SysProg.through ptr p).run (World.exec env) w = some (a, w')) :
    ∃ s, p.run (SPSCStorage.exec (m.window (w.kernel.segments m.seg)))
        (w.kernel.segments m.seg).storage = some (a, s) ∧ Stores m.seg s w w' := by
  -- by induction on the program; the invariant is that `ptr` points into mapping `m`
  induction p generalizing w with
  | ret b =>
    obtain ⟨rfl, rfl⟩ := Prod.mk.inj (Option.some.inj h)
    exact ⟨_, rfl, .refl _ _⟩
  | step o k ih =>
    obtain ⟨⟨r, w₁⟩, he, hk⟩ := Prog.of_run_step h
    simp only [World.exec, hm] at he
    split at he
    · exact absurd he (by simp)
    · next r' s hexec =>
      obtain ⟨rfl, rfl⟩ := Prod.mk.inj (Option.some.inj he)
      -- the indices stay below 2^64, so that reading the bytes back gives `s`
      have hs : s.InRange := SPSCStorage.inRange_of_exec hfits.1 hexec
        (SPSCStorage.inRange_ofBytes _)
      have hstores := Stores.setBytes (i := m.seg) hs w
      generalize hw₁ : World.mk (w.kernel.setBytes m.seg (s.toBytes
        (w.kernel.segments m.seg).bytes)) w.process w.calls = w₁ at hstores hk
      have hm₁ : w₁.process.mappingAt ptr = some m := by
        rw [hstores.process]
        exact hm
      obtain ⟨s', hrun, hstores'⟩ := ih r' (hfits.2 r') hm₁ hk
      refine ⟨s', ?_, hstores.trans hstores'⟩
      -- the window does not move: the step leaves the sizes alone
      have hwindow : ∀ g : Segment, g.size = (w.kernel.segments m.seg).size →
          m.window g = m.window (w.kernel.segments m.seg) := by
        intro g hg
        unfold Mapping.window
        rw [hg]
      rw [hstores.storage, hwindow _ hstores.size] at hrun
      exact (Prog.run_step hexec).trans hrun

/-! ### Publishers on their segments -/

/-- Publisher `p` has its queue `q` on the segment of mapping `m`. -/
structure Publishing (w : World) (p : Publisher) (q : QueueAt) (m : Mapping) : Prop where
  shm : ∃ shm, p.shm = some shm ∧ shm.shmPtr = m.addr ∧ shm.size = m.len ∧ shm.created = false
  queue : p.queue = some q
  addr : q.storage = m.addr
  mapped : m ∈ w.process.mappings
  offset : m.offset = 0
  lt : m.seg < w.kernel.next
  name : (w.kernel.segments m.seg).name = p.config.object
  len : m.len = (w.kernel.segments m.seg).size
  handle : q.handle = SPSCQueue.construct (w.kernel.segments m.seg).storage

namespace Publishing

variable {w w' : World} {p p' : Publisher} {q q' : QueueAt} {m m' : Mapping}

instance : Decidable (Publishing w p q m) :=
  decidable_of_iff ((∃ shm ∈ p.shm, shm.shmPtr = m.addr ∧ shm.size = m.len ∧ shm.created = false) ∧
      p.queue = some q ∧ q.storage = m.addr ∧ m ∈ w.process.mappings ∧ m.offset = 0 ∧
      m.seg < w.kernel.next ∧ (w.kernel.segments m.seg).name = p.config.object ∧
      m.len = (w.kernel.segments m.seg).size ∧
      q.handle = SPSCQueue.construct (w.kernel.segments m.seg).storage)
    ⟨fun ⟨h₁, h₂, h₃, h₄, h₅, h₆, h₇, h₈, h₉⟩ => ⟨h₁, h₂, h₃, h₄, h₅, h₆, h₇, h₈, h₉⟩,
      fun ⟨h₁, h₂, h₃, h₄, h₅, h₆, h₇, h₈, h₉⟩ => ⟨h₁, h₂, h₃, h₄, h₅, h₆, h₇, h₈, h₉⟩⟩

/-- What a publisher is on is found in its record and in the table of mappings. -/
theorem exists_iff : (∃ q m, Publishing w p q m) ↔
    ∃ q ∈ p.queue, ∃ m ∈ w.process.mappings, Publishing w p q m :=
  ⟨fun ⟨q, m, h⟩ => ⟨q, h.queue, m, h.mapped, h⟩, fun ⟨q, _, m, _, h⟩ => ⟨q, m, h⟩⟩

instance : Decidable (∃ q m, Publishing w p q m) := decidable_of_iff _ exists_iff.symm

/-- Different objects, different segments. -/
theorem seg_ne (h : Publishing w p q m) (h' : Publishing w p' q' m')
    (hne : p.config.object ≠ p'.config.object) : m.seg ≠ m'.seg := by
  intro hseg
  refine hne ?_
  rw [← h.name, ← h'.name, hseg]

/-- A publisher is on one segment. -/
theorem unique (h : Publishing w p q m) (h' : Publishing w p q' m') : q = q' ∧ m = m' := by
  obtain rfl : q = q' := Option.some.inj (h.queue.symm.trans h'.queue)
  refine ⟨rfl, ?_⟩
  -- no two mappings have one address
  exact w.process.eq_of_addr_eq h.mapped h'.mapped (h.addr.symm.trans h'.addr)

/-- The pointer of a publisher leads to its mapping. -/
theorem mappingAt_eq (h : Publishing w p q m) : w.process.mappingAt q.storage = some m := by
  rw [h.addr]
  exact w.process.mappingAt_eq h.mapped h.offset

/-- The window of a publisher is the whole segment. -/
theorem window_eq (h : Publishing w p q m) :
    m.window (w.kernel.segments m.seg) = pageCeil (w.kernel.segments m.seg).size := by
  unfold Mapping.window
  rw [h.len]
  exact min_self _

/-- The segment and the mapping are as they were. -/
theorem of_segment_eq (h : Publishing w p q m) (hm : m ∈ w'.process.mappings)
    (hlt : w.kernel.next ≤ w'.kernel.next)
    (hseg : w'.kernel.segments m.seg = w.kernel.segments m.seg) : Publishing w' p q m := by
  -- the three fields that speak of the contents of the segment
  refine ⟨h.shm, h.queue, h.addr, hm, h.offset, lt_of_lt_of_le h.lt hlt, ?_, ?_, ?_⟩
  · rw [hseg]
    exact h.name
  · rw [hseg]
    exact h.len
  · rw [hseg]
    exact h.handle

/-- Work on another object. -/
theorem of_frame (h : Publishing w p q m) {name : String} (hF : Frame name w w')
    (hm : m ∈ w'.process.mappings) (hne : p.config.object ≠ shmObject name) :
    Publishing w' p q m ∧ w'.kernel.segments m.seg = w.kernel.segments m.seg := by
  have hseg := hF.segments m.seg h.lt (by rw [h.name]; exact hne)
  exact ⟨h.of_segment_eq hm hF.next hseg, hseg⟩

/-- Operations on a queue, this one or another. -/
theorem of_stores (h : Publishing w p q m) {i : Nat} {s : SPSCStorage} (hst : Stores i s w w')
    (hheader : (w.kernel.segments i).storage.SameHeader s) : Publishing w' p q m := by
  have hm : m ∈ w'.process.mappings := by
    rw [hst.process]
    exact h.mapped
  by_cases hi : m.seg = i
  · -- its own segment: the header is what the handle was built from
    subst hi
    refine ⟨h.shm, h.queue, h.addr, hm, h.offset, by rw [hst.next]; exact h.lt, ?_, ?_, ?_⟩
    · rw [hst.name]
      exact h.name
    · rw [hst.size]
      exact h.len
    · rw [hst.storage, hheader.construct_eq]
      exact h.handle
  · exact h.of_segment_eq hm (by rw [hst.next]) (hst.others _ hi)

end Publishing

/-! ### The loop of `publish` -/

/-- The outcome of one `enqueue` on the storage in the segment of a publisher. -/
def Enqueues (val : Message) (w w' : World) (p : Publisher) (ok : Bool) : Prop :=
  ∃ q m, Publishing w p q m ∧
    (q.handle.enqueue val).run (SPSCStorage.exec (pageCeil (w.kernel.segments m.seg).size))
      (w.kernel.segments m.seg).storage = some (ok, (w'.kernel.segments m.seg).storage)

/-- A list of outcomes has one for each element. -/
theorem exists_mem_of_forall₂ {α β : Type} {R : α → β → Prop} {l : List α} {l' : List β}
    (h : List.Forall₂ R l l') {a : α} (ha : a ∈ l) : ∃ b ∈ l', R a b := by
  induction h with
  | nil => exact absurd ha List.not_mem_nil
  | cons hab _ ih =>
    rcases List.mem_cons.mp ha with rfl | ha
    · exact ⟨_, List.mem_cons_self, hab⟩
    · obtain ⟨b, hb, hR⟩ := ih ha
      exact ⟨b, List.mem_cons_of_mem _ hb, hR⟩

/-- What publishing to `l` does beside the storages of `l`. -/
structure Fanned (l : List Publisher) (w w' : World) : Prop where
  next : w'.kernel.next = w.kernel.next
  process : w'.process = w.process
  others : ∀ j, (∀ p ∈ l, ∀ q m, Publishing w p q m → m.seg ≠ j) →
    w'.kernel.segments j = w.kernel.segments j
  publishing : ∀ p q m, Publishing w p q m → Publishing w' p q m

variable {env : Env} {val : Message}

/-- **One publisher.** -/
theorem publish_spec {p : Publisher} {q : QueueAt} {m : Mapping} {w w' : World} {ok : Bool}
    (hp : Publishing w p q m)
    (h : (p.publish val).run (World.exec env) w = some (ok, w')) :
    ∃ s, (q.handle.enqueue val).run
        (SPSCStorage.exec (pageCeil (w.kernel.segments m.seg).size))
        (w.kernel.segments m.seg).storage = some (ok, s) ∧ Stores m.seg s w w' := by
  unfold Publisher.publish at h
  rw [hp.queue] at h
  have hrun := run_through (SPSCQueue.fits_enqueue q.handle val) hp.mappingAt_eq h
  rw [hp.window_eq] at hrun
  exact hrun

/-- `is_empty` of a publisher compares the indices in its segment, and changes nothing there. -/
theorem isEmpty_spec {p : Publisher} {q : QueueAt} {m : Mapping} {w w' : World} {b : Bool}
    (hp : Publishing w p q m) (h : p.isEmpty.run (World.exec env) w = some (b, w')) :
    b = decide ((w.kernel.segments m.seg).storage.readIx =
        (w.kernel.segments m.seg).storage.writeIx) ∧
      Stores m.seg (w.kernel.segments m.seg).storage w w' := by
  unfold Publisher.isEmpty at h
  rw [hp.queue] at h
  obtain ⟨s, hrun, hst⟩ := run_through SPSCQueue.fits_isEmpty hp.mappingAt_eq h
  -- what can be done in some region gives the same answer in a larger one
  have hmono := SPSCStorage.run_mono (Nat.le_add_left _ 256) hrun
  rw [SPSCQueue.run_isEmpty (Nat.le_add_right 256 _)] at hmono
  obtain ⟨rfl, rfl⟩ := Prod.mk.inj (Option.some.inj hmono)
  exact ⟨rfl, hst⟩

/-- **All publishers.** Each segment receives the message once, from the storage that was there; the
result is the conjunction of the single ones. -/
theorem publishAll_spec {l : List Publisher} {w w' : World} {published b : Bool}
    (hnodup : (l.map fun p => p.config.object).Nodup)
    (hl : ∀ p ∈ l, ∃ q m, Publishing w p q m)
    (h : (PubSub.publishAll val l published).run (World.exec env) w = some (b, w')) :
    Fanned l w w' ∧ ∃ oks, List.Forall₂ (Enqueues val w w') l oks ∧
      b = (published && oks.all id) := by
  induction l generalizing w published with
  -- `published` is the accumulator of the loop
  | nil =>
    obtain ⟨rfl, rfl⟩ := Prod.mk.inj (Option.some.inj h)
    refine ⟨⟨rfl, rfl, fun _ _ => rfl, fun _ _ _ h => h⟩, [], .nil, ?_⟩
    rw [List.all_nil, Bool.and_true]
  | cons p l ih =>
    obtain ⟨hfirst, hnodup'⟩ := List.nodup_cons.mp hnodup
    obtain ⟨q, m, hp⟩ := hl p List.mem_cons_self
    rw [PubSub.publishAll, Prog.run_bind] at h
    obtain ⟨⟨ok, w₁⟩, hrun, hrest⟩ := Option.bind_eq_some_iff.mp h
    -- one `enqueue` on the segment of `p`
    obtain ⟨s, henq, hst⟩ := publish_spec hp hrun
    have hheader := SPSCStorage.sameHeader_of_run henq
    have hkeep : ∀ p q m, Publishing w p q m → Publishing w₁ p q m :=
      fun _ _ _ hpub => hpub.of_stores hst hheader
    have hl' : ∀ p' ∈ l, ∃ q m, Publishing w₁ p' q m := by
      intro p' hp'
      obtain ⟨q', m', h'⟩ := hl p' (List.mem_cons_of_mem _ hp')
      exact ⟨q', m', hkeep _ _ _ h'⟩
    -- the others are on other segments
    have hother : ∀ p' ∈ l, ∀ q' m', Publishing w₁ p' q' m' → m'.seg ≠ m.seg := by
      intro p' hp' q' m' h'
      refine h'.seg_ne (hkeep _ _ _ hp) fun heq => hfirst ?_
      exact List.mem_map.mpr ⟨p', hp', heq⟩
    obtain ⟨hfan, oks, hoks, hb⟩ := ih hnodup' hl' hrest
    refine ⟨⟨hfan.next.trans hst.next, hfan.process.trans hst.process, fun j hj => ?_,
      fun p' q' m' h' => hfan.publishing _ _ _ (hkeep _ _ _ h')⟩, ok :: oks, .cons ?_ ?_, ?_⟩
    · rw [hfan.others j fun p' hp' q' m' h' => ?_]
      · exact hst.others j (Ne.symm (hj p List.mem_cons_self q m hp))
      · obtain ⟨q'', m'', h''⟩ := hl p' (List.mem_cons_of_mem _ hp')
        obtain ⟨rfl, rfl⟩ := h'.unique (hkeep _ _ _ h'')
        exact hj p' (List.mem_cons_of_mem _ hp') _ _ h''
    · -- the rest does not touch this segment
      refine ⟨q, m, hp, ?_⟩
      rw [hfan.others m.seg hother, hst.storage]
      exact henq
    · -- and this one has not touched theirs
      refine ((List.forall₂_and_left l oks).mpr ⟨fun _ hmem => hmem, hoks⟩).imp ?_
      rintro p' ok' ⟨hp', q', m', h', henq'⟩
      obtain ⟨q'', m'', h''⟩ := hl p' (List.mem_cons_of_mem _ hp')
      obtain ⟨rfl, rfl⟩ := h'.unique (hkeep _ _ _ h'')
      refine ⟨_, _, h'', ?_⟩
      rw [← hst.others _ (hother p' hp' _ _ h')]
      exact henq'
    · rw [hb, List.all_cons, Bool.and_assoc]
      rfl

end PosixIpc
