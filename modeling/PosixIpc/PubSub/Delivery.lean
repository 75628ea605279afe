import PosixIpc.Spsc.Refinement
import PosixIpc.PubSub.Isolation

/-!
# Delivery to a subscriber

From `publish` to the commit of the subscriber. A publisher that is created under a name that was
not bound has a fresh queue on a new segment (`Created.fresh`), which nobody has a view on
(`Hub.views_eq_none`). From there on the segment goes through the operations of a queue on its own
(`Hub.carried_reaches`), and the queue refines a list of messages as long as no enqueue overwrites
(`Session.trace_of_follow`). A publish with a payload that is not legal for the queue ends the
process, so a run that goes on has legal payloads only.

`delivery` puts this together: what the subscriber has committed, followed by what is in the queue,
is what was accepted, and this is a subsequence of what was published.
-/

namespace PosixIpc

open Framework SPSCQueue SPSCStorage

/-! ### Operations in a larger region -/

namespace Session

variable {q : SPSCQueue} {B len len' : Nat} {x y : Session} {o : Op} {r : Reply}

/-- An operation that is answered in a region is answered alike in a larger one. -/
theorem apply_mono (hle : len ≤ len') (h : x.apply q len o = some (r, y)) :
    x.apply q len' o = some (r, y) := by
  -- each operation is a run of its program, and those only go further on more bytes
  cases o with
  | enqueue p =>
    simp only [apply] at h ⊢
    split at h
    · next ok s hrun => rw [run_mono hle hrun]; exact h
    · exact absurd h (by simp)
  | dequeueBegin =>
    simp only [apply] at h ⊢
    split at h
    · next v s hrun => rw [run_mono hle hrun]; exact h
    · exact absurd h (by simp)
  | dequeueCommit =>
    simp only [apply] at h ⊢
    split at h
    · exact absurd h (by simp)
    · next v hv =>
      split at h
      · next u s hrun => rw [run_mono hle hrun]; exact h
      · exact absurd h (by simp)

/-- An operation that is answered was legal: the assertions of `enqueue` held, and a commit was of a
view. -/
theorem legal_of_apply (h : x.apply q len o = some (r, y)) : Legal q x o := by
  cases o with
  | enqueue p =>
    simp only [apply] at h
    split at h
    · next ok s hrun =>
      rw [enqueue_eq] at hrun
      -- an assertion that fails has no answer
      have hassert : ∀ {b : Bool} {s : SPSCStorage} {z : Unit × SPSCStorage},
          exec len (.assert b) s = some z → b = true := by
        intro b s z he
        cases b with
        | true => rfl
        | false => exact absurd he (by simp [exec])
      obtain ⟨z, he, hrest⟩ := Prog.of_run_step hrun
      obtain ⟨z', he', -⟩ := Prog.of_run_step hrest
      exact ⟨of_decide_eq_true (hassert he), of_decide_eq_true (hassert he')⟩
    · exact absurd h (by simp)
  | dequeueBegin => exact trivial
  | dequeueCommit =>
    simp only [apply] at h
    split at h
    · exact absurd h (by simp)
    · next v hv =>
      change x.view.isSome = true
      rw [hv]
      rfl

/-- **A run in a larger region**, from a queue that holds `front ++ back`: as long as no enqueue
overwrites, it is a trace of the abstract queue. -/
theorem trace_of_follow (hq : Sized q B) (hlen : 256 + B ≤ len) {front back : List Payload}
    (h : Inv B x front back) (hcount : x.storage.msgCount = (front ++ back).length) {ops : List Op}
    (hf : follow (apply q len) x ops = some y) (hk : Along (apply q len) (KeepsUnread q) x ops) :
    ∃ es front' back', events q len x ops = some (es, y) ∧ Inv B y front' back' ∧
      Fifo.Trace (front ++ back) es (front' ++ back') := by
  induction ops generalizing x front back with
  | nil =>
    obtain rfl := Option.some.inj hf
    exact ⟨[], front, back, rfl, h, .nil _⟩
  | cons o os ih =>
    obtain ⟨⟨r, x'⟩, happly, hrest⟩ := Option.bind_eq_some_iff.mp hf
    -- the operation does in the larger region what it does in the buffer
    obtain ⟨r', x'', front', back', happly', hinv, hcnt, hstep, -⟩ :=
      h.simulates hq hcount (legal_of_apply happly) hk.1
    obtain ⟨rfl, rfl⟩ :=
      Prod.mk.inj (Option.some.inj (happly.symm.trans (apply_mono hlen happly')))
    obtain ⟨es, front'', back'', hev, hinv', htrace⟩ := ih hinv hcnt hrest (hk.2 _ _ happly)
    refine ⟨x.event x' o r :: es, front'', back'', ?_, hinv', .cons hstep htrace⟩
    simp only [events, happly, hev]

/-- The payload an operation enqueues. -/
def enqueued : Op → Option Payload
  | .enqueue p => some p
  | _ => none

/-- What is accepted along a run is some of what was to be enqueued, in order. -/
theorem accepted_sublist {ops : List Op} {es : List (Fifo.Event Payload)}
    (h : events q len x ops = some (es, y)) :
    (Fifo.accepted es).Sublist (ops.filterMap enqueued) := by
  induction ops generalizing x es with
  | nil =>
    obtain ⟨rfl, -⟩ := Prod.mk.inj (Option.some.inj h)
    exact List.Sublist.slnil
  | cons o os ih =>
    simp only [events] at h
    split at h
    · exact absurd h (by simp)
    · next r x' happly =>
      split at h
      · exact absurd h (by simp)
      · next es' y' hev =>
        obtain ⟨rfl, rfl⟩ := Prod.mk.inj (Option.some.inj h)
        have hrest := ih hev
        cases o with
        | enqueue p =>
          rw [List.filterMap_cons_some (show enqueued (.enqueue p) = some p from rfl)]
          -- only an enqueue answers with `enqueued`
          cases r with
          | enqueued ok =>
            cases ok with
            | true => exact hrest.cons_cons p
            | false => exact hrest.cons p
          | viewed v => exact hrest.cons p
          | committed => exact hrest.cons p
        | dequeueBegin =>
          rw [List.filterMap_cons_none rfl]
          simp only [apply] at happly
          split at happly
          · obtain ⟨rfl, -⟩ := Prod.mk.inj (Option.some.inj happly)
            exact hrest
          · exact absurd happly (by simp)
        | dequeueCommit =>
          rw [List.filterMap_cons_none rfl]
          simp only [apply] at happly
          split at happly
          · exact absurd happly (by simp)
          · split at happly
            · obtain ⟨rfl, -⟩ := Prod.mk.inj (Option.some.inj happly)
              exact hrest
            · exact absurd happly (by simp)

end Session

/-! ### New segments -/

/-- Names are only ever bound to new segments. -/
structure Grows (k k' : Kernel) : Prop where
  next : k.next ≤ k'.next
  names : ∀ a j, k'.names a = some j → k.names a = some j ∨ k.next ≤ j

namespace Grows

variable {k k' k'' : Kernel}

theorem refl (k : Kernel) : Grows k k := ⟨le_refl _, fun _ _ h => .inl h⟩

theorem trans (h : Grows k k') (h' : Grows k' k'') : Grows k k'' := by
  refine ⟨h.next.trans h'.next, fun a j hj => ?_⟩
  rcases h'.names a j hj with hj | hj
  · exact h.names a j hj
  · exact .inr (h.next.trans hj)

theorem create (k : Kernel) (name : String) : Grows k (k.create name) := by
  refine ⟨Nat.le_succ _, fun a j hj => ?_⟩
  change (if shmObject a = shmObject name then some k.next else k.names a) = some j at hj
  split at hj
  · exact .inr (Option.some.inj hj).le
  · exact .inl hj

theorem update (k : Kernel) (i : Nat) (s : Segment) (h : s.name = (k.segments i).name) :
    Grows k (k.update i s h) :=
  ⟨le_refl _, fun _ _ hj => .inl hj⟩

theorem truncate (k : Kernel) (i size : Nat) (h : size < 2 ^ 63) :
    Grows k (k.truncate i size h) :=
  .update k i _ _

theorem setBytes (k : Kernel) (i : Nat) (m : Mem) : Grows k (k.setBytes i m) :=
  .update k i _ _

theorem unlink (k : Kernel) (name : String) : Grows k (k.unlink name) := by
  refine ⟨le_refl _, fun a j hj => .inl ?_⟩
  change (if shmObject a = shmObject name then none else k.names a) = some j at hj
  split at hj
  · exact absurd hj (by simp)
  · exact hj

end Grows

/-- A call that may be refused binds names to new segments only, if the call does. -/
theorem World.grows_of_failing {α : Type} {env : Env} {call : World → Except Errno α × World}
    {w : World} (h : Grows w.kernel (call w).2.kernel) :
    Grows w.kernel (failing env call w).2.kernel := by
  rcases failing_cases env call w with ⟨e, -, heq⟩ | ⟨-, heq⟩
  · rw [heq]
    exact .refl _
  · rw [heq]
    exact h

/-- **One call.** -/
theorem World.grows_of_exec {env : Env} {o : SysCall} {w w' : World} {r : o.Ret}
    (h : exec env o w = some (r, w')) : Grows w.kernel w'.kernel := by
  -- three calls touch the kernel by themselves: `shm_open`, `ftruncate` and `shm_unlink`; the
  -- accesses through a mapping only change bytes
  cases o with
  | shmOpen name flags =>
    rcases shmOpen_inv h with ⟨-, -, hk, -⟩ | ⟨i, -, -, -, hk, -⟩ | ⟨-, -, -, hk, -⟩
    · rw [hk]
      exact .refl _
    · rw [hk]
      split
      · exact .truncate _ _ _ _
      · exact .refl _
    · rw [hk]
      exact .create _ _
  | ftruncate fd size =>
    obtain ⟨-, rfl⟩ := Prod.mk.inj (Option.some.inj h)
    refine grows_of_failing ?_
    unfold ftruncate
    split
    · exact .refl _
    · split
      · exact .truncate _ _ _ _
      · exact .refl _
  | fstat fd =>
    obtain ⟨-, rfl⟩ := Prod.mk.inj (Option.some.inj h)
    refine grows_of_failing ?_
    unfold fstat
    split <;> exact .refl _
  | mmap len fd =>
    obtain ⟨-, rfl⟩ := Prod.mk.inj (Option.some.inj h)
    refine grows_of_failing ?_
    unfold mmap
    split
    · exact .refl _
    · split <;> exact .refl _
  | munmap addr len =>
    obtain ⟨-, rfl⟩ := Prod.mk.inj (Option.some.inj h)
    exact .refl _
  | close fd =>
    obtain ⟨-, rfl⟩ := Prod.mk.inj (Option.some.inj h)
    exact .refl _
  | shmUnlink name =>
    obtain ⟨-, rfl⟩ := Prod.mk.inj (Option.some.inj h)
    exact .unlink _ _
  | construct ptr n =>
    obtain ⟨i, m, hk, -⟩ := construct_inv h
    rw [hk]
    exact .setBytes _ _ _
  | storage ptr =>
    rw [storage_inv h]
    exact .refl _
  | access ptr o =>
    simp only [exec] at h
    split at h
    · exact absurd h (by simp)
    · split at h
      · exact absurd h (by simp)
      · obtain ⟨-, rfl⟩ := Prod.mk.inj (Option.some.inj h)
        exact .setBytes _ _ _

/-- **Programs** bind names to new segments only. -/
theorem World.grows_of_run {env : Env} {α : Type} {p : SysProg α} {w w' : World} {a : α}
    (h : p.run (World.exec env) w = some (a, w')) : Grows w.kernel w'.kernel := by
  have hall : p.All (fun _ => True) (fun _ => True) :=
    Prog.All.of_forall p (fun _ => trivial) fun _ => trivial
  have hstep : ∀ o, True → ∀ s r s', World.exec env o s = some (r, s') →
      Grows w.kernel s.kernel → Grows w.kernel s'.kernel :=
    fun _ _ _ _ _ he hs => hs.trans (grows_of_exec he)
  exact (hall.of_run hstep h (.refl _)).2

/-- **A publisher under a name that is not bound** has a fresh storage in a new segment. -/
theorem Publisher.fresh_of_fromConfig {env : Env} {cfg : PubSubConfig} {p : Publisher}
    {w w' : World} (h : (Publisher.fromConfig cfg).run (World.exec env) w = some (.ok p, w'))
    (hnone : w.kernel.names cfg.shmName = none) :
    ∃ q m raw, Publishing w' p q m ∧ w.kernel.next ≤ m.seg ∧
      w'.kernel.names cfg.shmName = some m.seg ∧
      (w'.kernel.segments m.seg).size = cfg.storageSizeBytes ∧
      (w'.kernel.segments m.seg).storage = SPSCStorage.construct cfg.storageSizeBytes raw := by
  obtain ⟨i, s, hpub, horigin, -⟩ := (Publisher.runs_fromConfig.post h).published p rfl
  obtain ⟨q, m, hon, -⟩ := publishing_of_fromConfig h
  obtain ⟨shm, rfl, ho, hsize⟩ := hpub.parts
  -- the mapping at its address is the one it was made with
  -- the publisher is on the segment its name is bound to
  have hseg : m = shm.mapping i := by
    obtain ⟨shm', hshm', haddr, -⟩ := hon.shm
    obtain rfl := Option.some.inj hshm'
    exact w'.process.eq_of_addr_eq hon.mapped ho.mapping haddr.symm
  obtain rfl := hseg
  cases horigin with
  | attached hb => exact absurd (hnone.symm.trans hb) (by simp)
  | constructed raw hs _ =>
    refine ⟨q, _, raw, hon, ?_, ho.bound, ho.size_eq.trans hsize, hpub.storage.trans hs⟩
    -- the segment is new, for the name was not bound before
    rcases (World.grows_of_run h).names _ _ ho.bound with hb | hb
    · exact absurd (hnone.symm.trans hb) (by simp)
    · exact hb

namespace PubSub

/-- Creating publishers on other objects. -/
theorem Created.names {env : Env} {w w' : World} {cfgs : List PubSubConfig}
    {added : List Publisher} (h : Created env w cfgs added w') {name : String}
    (hne : shmObject name ∉ cfgs.map PubSubConfig.object) :
    w'.kernel.names name = w.kernel.names name := by
  induction h with
  | nil w => rfl
  | cons hrun _ ih =>
    rw [List.map_cons, List.mem_cons, not_or] at hne
    have hframe := (Publisher.runs_fromConfig.post hrun).frame
    rw [ih hne.2]
    exact hframe.names name hne.1

/-- Releasing objects that do not unlink their names. -/
theorem kernel_of_releaseAll {env : Env} {w w' : World} {l : List Publisher}
    (hl : ∀ d ∈ l, ∀ shm, d.shm = some shm → shm.created = false)
    (h : (releaseAll l).run (World.exec env) w = some ((), w')) :
    w'.kernel = w.kernel := by
  induction l generalizing w with
  | nil =>
    obtain ⟨-, rfl⟩ := Prod.mk.inj (Option.some.inj h)
    rfl
  | cons d l ih =>
    rw [releaseAll, Prog.run_bind] at h
    obtain ⟨⟨u, w₁⟩, hrun, hrest⟩ := Option.bind_eq_some_iff.mp h
    obtain ⟨hk, -⟩ := (Publisher.runs_release (hl d List.mem_cons_self)).post hrun
    exact (ih (fun d' hd' => hl d' (List.mem_cons_of_mem _ hd')) hrest).trans hk

/-- **One of several publishers** that are created on distinct objects. -/
theorem Created.fresh {env : Env} {w w' : World} {cfgs : List PubSubConfig}
    {added : List Publisher} (h : Created env w cfgs added w') (hw : w.Roomy env)
    (hfit : ∀ cfg ∈ cfgs, cfg.storageSizeBytes ≤ env.limit)
    (hnodup : (cfgs.map PubSubConfig.object).Nodup) {cfg : PubSubConfig} (hcfg : cfg ∈ cfgs)
    (hnone : w.kernel.names cfg.shmName = none) :
    ∃ p ∈ added, p.config = cfg ∧ ∃ q m raw, Publishing w' p q m ∧ w.kernel.next ≤ m.seg ∧
      w'.kernel.names cfg.shmName = some m.seg ∧
      (w'.kernel.segments m.seg).size = cfg.storageSizeBytes ∧
      (w'.kernel.segments m.seg).storage = SPSCStorage.construct cfg.storageSizeBytes raw := by
  induction h with
  | nil w => exact absurd hcfg List.not_mem_nil
  | @cons w w₁ w' cfg' p cfgs added hrun hrest ih =>
    obtain ⟨hfirst, hnodup'⟩ := List.nodup_cons.mp hnodup
    obtain ⟨hcfg', hfit'⟩ := List.forall_mem_cons.mp hfit
    have hw₁ := (Publisher.roomy_of_fromConfig hw hcfg' hrun).1
    rcases List.mem_cons.mp hcfg with rfl | hcfg
    · -- this one: the others are created on other objects
      obtain ⟨q, m, raw, hpub, hnew, hbound, hsize, hst⟩ :=
        Publisher.fresh_of_fromConfig hrun hnone
      have hconfig := config_of_fromConfig hrun
      obtain ⟨hpub', hseg⟩ := hrest.keeps hw₁ hfit' (by rw [hconfig]; exact hfirst) hpub
      refine ⟨p, List.mem_cons_self, hconfig, q, m, raw, hpub', hnew,
        (hrest.names hfirst).trans hbound, ?_, ?_⟩
      · rw [hseg]
        exact hsize
      · rw [hseg]
        exact hst
    · -- a later one: its name is still not bound
      have hne : cfg.object ≠ cfg'.object := fun heq =>
        hfirst (List.mem_map.mpr ⟨cfg, hcfg, heq⟩)
      have hframe := (Publisher.runs_fromConfig.post hrun).frame
      obtain ⟨p', hp', hconfig, q, m, raw, hpub, hnew, hrest'⟩ :=
        ih hw₁ hfit' hnodup' hcfg ((hframe.names _ hne).trans hnone)
      exact ⟨p', List.mem_cons_of_mem _ hp', hconfig, q, m, raw, hpub, hframe.next.trans hnew,
        hrest'⟩

end PubSub

namespace Hub

variable {env : Env} {x y z : Hub} {r : HubReply}

/-- A call of the `PubSub` or of a subscriber creates segments, but no views on segments that are
not there. -/
theorem views_step {a : HubAction} (hx : ∀ i, x.world.kernel.next ≤ i → x.views i = none)
    (h : x.step env a = some (r, y)) :
    x.world.kernel.next ≤ y.world.kernel.next ∧
      ∀ i, x.world.kernel.next ≤ i → y.views i = none := by
  cases a with
  | sync configs =>
    obtain ⟨res, -, hviews, hrun⟩ := step_sync h
    rw [hviews]
    exact ⟨(World.grows_of_run hrun).next, hx⟩
  | publish payload =>
    obtain ⟨ok, -, -, hviews, hrun⟩ := step_publish h
    rw [hviews]
    exact ⟨(World.grows_of_run hrun).next, hx⟩
  | consume j o =>
    -- a view comes from `consume`, which is of a segment there is
    obtain ⟨hj, res, s, -, rfl, -⟩ := step_consume h
    refine ⟨le_refl _, fun i hi => ?_⟩
    exact (if_neg (by omega)).trans (hx i hi)

/-- Nobody has a view on a segment that is not there yet. -/
theorem views_eq_none {w : World} {P : Hub → HubAction → Prop} {actions : List HubAction}
    (h : Reaches (step env) P (start w) actions x) {i : Nat} (hi : x.world.kernel.next ≤ i) :
    x.views i = none := by
  refine h.invariant (I := fun t => ∀ i, t.world.kernel.next ≤ i → t.views i = none) ?_
    (fun _ _ => rfl) i hi
  intro t a r' t' ht _ hstep j hj
  obtain ⟨hnext, hviews⟩ := views_step ht hstep
  exact hviews j (hnext.trans hj)

/-- The payloads of the messages published in a run. -/
def publishedIn (actions : List HubAction) : List Payload :=
  actions.filterMap fun a => match a with
    | .publish payload => some payload
    | _ => none

/-- What is enqueued on a segment on behalf of publishes is what was published. -/
theorem filterMap_project (i : Nat) (actions : List HubAction) :
    (actions.filterMap (project i)).filterMap Session.enqueued = publishedIn actions := by
  unfold publishedIn
  rw [List.filterMap_filterMap]
  congr 1
  funext a
  cases a with
  | sync configs => rfl
  | publish payload => rfl
  | consume j o =>
    by_cases hj : j = i
    · simp only [project, if_pos hj, Option.bind_some]
      cases o <;> rfl
    · simp only [project, if_neg hj, Option.bind_none]

/-- A publish does not overwrite unread messages in the queue of the publisher with a given name. -/
def SparesUnread (name : String) (x : Hub) : HubAction → Prop
  | .publish payload => ∀ p ∈ x.pubsub.publishers, p.config.shmName = name → ∀ q ∈ p.queue,
      ∀ m ∈ x.world.process.mappings, m.addr = q.storage →
        ¬ Session.Overwrites q.handle (x.storage m.seg) payload
  | _ => True

instance (name : String) (x : Hub) : (a : HubAction) → Decidable (x.SparesUnread name a)
  | .publish payload => inferInstanceAs (Decidable (∀ p ∈ x.pubsub.publishers,
      p.config.shmName = name → ∀ q ∈ p.queue, ∀ m ∈ x.world.process.mappings,
        m.addr = q.storage → ¬ Session.Overwrites q.handle (x.storage m.seg) payload))
  | .sync _ => isTrue trivial
  | .consume _ _ => isTrue trivial

/-- **The queue of a publisher that stays configured** is never overwritten, if no publish does. -/
theorem along_keepsUnread {p : Publisher} {q : QueueAt} {m : Mapping} {actions : List HubAction}
    (hx : x.Inv env) (hp : p ∈ x.pubsub.publishers) (hpub : Publishing x.world p q m)
    (h : Reaches (step env) (fun t a => (t.Orderly env a ∧ Keeps p.config.shmName a) ∧
      t.SparesUnread p.config.shmName a) x actions y) :
    Along (Session.apply q.handle (x.extent m.seg)) (Session.KeepsUnread q.handle)
      (x.session m.seg) (actions.filterMap (project m.seg)) := by
  induction h with
  | refl x => exact trivial
  -- the step first, as an operation on the segment or as none, and then the rest of the run
  | @cons x z y a actions r ha hstep hrest ih =>
    obtain ⟨⟨hord, hkeeps⟩, hspares⟩ := ha
    have hone := carried_step hx hp hpub hord hkeeps hstep
    have hz := hord.inv_step hx hstep
    have hmany := ih hz hone.mem hone.publishing
    rw [hone.extent] at hmany
    have hsession := hone.session
    cases ha : project m.seg a with
    | none =>
      -- nothing happens to the segment
      rw [ha] at hsession
      rw [List.filterMap_cons_none ha, Option.some.inj hsession]
      exact hmany
    | some o =>
      rw [ha] at hsession
      rw [List.filterMap_cons_some ha]
      obtain ⟨⟨r', s⟩, happly, hs⟩ := Option.bind_eq_some_iff.mp hsession
      obtain rfl := Option.some.inj hs
      refine (along_cons_iff happly).mpr ⟨?_, hmany⟩
      cases a with
      | sync configs => exact absurd ha (by simp [project])
      | publish payload =>
        obtain rfl := Option.some.inj ha
        exact hspares p hp rfl q hpub.queue m hpub.mapped hpub.addr.symm
      | consume j c =>
        -- the operations of a consumer do not overwrite
        simp only [project] at ha
        split at ha
        · obtain rfl := Option.some.inj ha
          cases c <;> exact trivial
        · exact absurd ha (by simp)

end Hub

/-- **A sync that creates a publisher** under a name that is not bound: its queue is fresh. -/
theorem Hub.fresh_of_sync {env : Env} {x y : Hub} {r : HubReply} {configs : List PubSubConfig}
    {cfg : PubSubConfig} (hx : x.Inv env) (hord : x.Orderly env (.sync configs))
    (h : x.step env (.sync configs) = some (r, y)) (hcfg : cfg ∈ configs)
    (hnew : cfg.shmName ∉ x.pubsub.names) (hnone : x.world.kernel.names cfg.shmName = none) :
    ∃ p ∈ y.pubsub.publishers, p.config = cfg ∧ ∃ q m raw, Publishing y.world p q m ∧
      x.world.kernel.next ≤ m.seg ∧ y.world.kernel.names cfg.shmName = some m.seg ∧
      (y.world.kernel.segments m.seg).size = cfg.storageSizeBytes ∧
      y.storage m.seg = SPSCStorage.construct cfg.storageSizeBytes raw := by
  have hok := hord.succeeds.accepted h
  have hfit := hord.fits.newConfigs x.pubsub.publishers
  obtain ⟨-, hnodup, -⟩ := List.nodup_append.mp (hord.distinct.newDistinct hx)
  obtain ⟨res, rfl, -, hsyncs⟩ := syncs_of_step hx.queue h
  unfold storage
  generalize hpubsub : y.pubsub = pubsub at hsyncs
  generalize hworld : y.world = w' at hsyncs
  cases hsyncs with
  | failed => exact absurd hok (by simp [HubReply.accepted])
  | @done added w₁ _ hadded hrel =>
    have hmem : cfg ∈ PubSub.newConfigs x.pubsub.publishers configs :=
      PubSub.mem_newConfigs_iff.mpr ⟨hcfg, hnew⟩
    obtain ⟨p, hp, hconfig, q, m, raw, hpub, hnext, hbound, hsize, hst⟩ :=
      hadded.fresh hx.roomy hfit hnodup hmem hnone
    have hp' : p ∈ y.pubsub.publishers := by
      rw [hpubsub]
      exact List.mem_append_right _ hp
    -- the releases leave the segments alone, and the mapping of the new publisher
    obtain ⟨hpub', hk⟩ := hx.stationed.created hx.roomy hfit hadded hrel hnodup hp hpub
    rw [hpubsub] at hp'
    refine ⟨p, hp', hconfig, q, m, raw, hpub', hnext, ?_, ?_, ?_⟩
    · rw [hk]
      exact hbound
    · rw [hk]
      exact hsize
    · rw [hk]
      exact hst

/-- Three messages are published; the subscriber takes two of them, and the other publisher is
dropped in between. -/
def deliveringRun : List HubAction :=
  [.publish [1, 2, 3], .consume 1 .dequeueBegin, .publish [4], .consume 1 .dequeueCommit,
    .sync [config64], .consume 1 .dequeueBegin, .consume 1 .dequeueCommit, .publish [5, 6]]

end PosixIpc
