import PosixIpc.PubSub.Agreement
import PosixIpc.PubSub.Hub

/-!
# Convergence to the configuration

A sync that succeeds on an empty queue of changes leaves exactly the configured names. A sync that
fails leaves its changes in the queue, and the next one to succeed applies them: a removal that was
queued then meets the publisher that was to stay. So the publishers follow the configurations
exactly as long as no sync fails after it has queued a change (`convergence_iff`).
-/

namespace PosixIpc

open Framework

namespace PubSub

variable {env : Env} {configs : List PubSubConfig} {publishers : List Publisher} {w : World}

/-- **The names after a sync.** -/
theorem mem_names_iff {added : List Publisher}
    (h : added.map Publisher.config = newConfigs publishers configs) (n : String) :
    n ∈ (PubSub.mk (kept configs publishers ++ added) []).names ↔
      n ∈ configs.map PubSubConfig.shmName := by
  have hadded : ∀ n, n ∈ added.map (fun p => p.config.shmName) ↔
      ∃ cfg ∈ newConfigs publishers configs, cfg.shmName = n := by
    intro n
    rw [← h, ← List.mem_map, List.map_map]
    rfl
  unfold names
  rw [List.map_append, List.mem_append, hadded]
  constructor
  · -- both halves have configured names only
    rintro (hk | ⟨cfg, hcfg, rfl⟩)
    · obtain ⟨p, hp, rfl⟩ := List.mem_map.mp hk
      exact isConfigured_iff.mp (List.mem_filter.mp hp).2
    · exact List.mem_map_of_mem (List.mem_filter.mp hcfg).1
  · intro hn
    obtain ⟨cfg, hcfg, rfl⟩ := List.mem_map.mp hn
    -- a configured name was published already, or it is new
    cases hpub : isPublished publishers cfg with
    | true =>
      obtain ⟨p, hp, hname⟩ := List.mem_map.mp (isPublished_iff.mp hpub)
      refine .inl (List.mem_map.mpr ⟨p, List.mem_filter.mpr ⟨hp, isConfigured_iff.mpr ?_⟩, hname⟩)
      rw [hname]
      exact hn
    | false => exact .inr ⟨cfg, List.mem_filter.mpr ⟨hcfg, by rw [hpub]; rfl⟩, rfl⟩

/-- Publishers that could all be created: none of them failed. -/
theorem Created.not_failed {pre post : List PubSubConfig} {cfg : PubSubConfig}
    {added added' : List Publisher} {w₁ w' w'' : World} {e : PosixIpcError}
    (h : Created env w (pre ++ cfg :: post) added' w'') (hpre : Created env w pre added w₁)
    (herr : (Publisher.fromConfig cfg).run (World.exec env) w₁ = some (.error e, w')) : False := by
  -- a run is determined by its start, so both creations agree as far as both go
  induction hpre generalizing added' with
  | nil w =>
    cases h with
    | cons hok _ => exact absurd (hok.symm.trans herr) (by simp)
  | cons hok _ ih =>
    cases h with
    | cons hok' hrest =>
      obtain ⟨-, rfl⟩ := Prod.mk.inj (Option.some.inj (hok.symm.trans hok'))
      exact ih hrest herr

end PubSub

namespace Hub

variable {env : Env} {x : Hub}

/-- The property of a call: the queue of changes is empty afterwards, and if the call succeeds, the
names are the configured ones. -/
def Converges (env : Env) (x : Hub) : HubAction → Prop
  | .sync configs => ∀ r y, x.step env (.sync configs) = some (r, y) →
      y.pubsub.changeQueue = [] ∧
        (r = .synced (.ok ()) → ∀ n, n ∈ y.pubsub.names ↔ n ∈ configs.map PubSubConfig.shmName)
  | _ => True

/-- The condition on a call: every new publisher can be created, or already the first one cannot,
and there is none to remove. -/
def FailsCleanly (env : Env) (x : Hub) : HubAction → Prop
  | .sync configs =>
    (∃ added w', PubSub.Created env x.world
        (PubSub.newConfigs x.pubsub.publishers configs) added w') ∨
      (PubSub.dropped configs x.pubsub.publishers = [] ∧
        ∃ cfg post e w', PubSub.newConfigs x.pubsub.publishers configs = cfg :: post ∧
          (Publisher.fromConfig cfg).run (World.exec env) x.world = some (.error e, w'))
  | _ => True

theorem converges_of_failsCleanly {configs : List PubSubConfig} (hq : x.pubsub.changeQueue = [])
    (h : x.FailsCleanly env (.sync configs)) : x.Converges env (.sync configs) := by
  intro r y hstep
  obtain ⟨res, rfl, -, hsyncs⟩ := syncs_of_step hq hstep
  generalize hpubsub : y.pubsub = pubsub at hsyncs ⊢
  cases hsyncs with
  | done hadded hrel => exact ⟨rfl, fun _ => PubSub.mem_names_iff hadded.map_config⟩
  | @failed pre post cfg added w₁ w' e hnew hadded herr =>
    refine ⟨?_, fun hr => absurd hr (by simp)⟩
    rcases h with ⟨added', w'', hall⟩ | ⟨hdrop, cfg', post', e', w'', hfirst, herr'⟩
    · -- all could be created, so none failed
      rw [hnew] at hall
      exact (hall.not_failed hadded herr).elim
    · -- it failed at the first new configuration, so nothing was queued
      cases hadded with
      | nil =>
        change PubSub.removals configs x.pubsub.publishers ++ [] = []
        rw [PubSub.removals_eq, hdrop]
        rfl
      | cons hok _ =>
        obtain ⟨rfl, -⟩ := List.cons.inj (hnew.symm.trans hfirst)
        exact absurd (hok.symm.trans herr') (by simp)

theorem failsCleanly_of_converges {configs : List PubSubConfig} (hq : x.pubsub.changeQueue = [])
    (h : x.Converges env (.sync configs)) : x.FailsCleanly env (.sync configs) := by
  obtain ⟨res, y, hstep, hsyncs⟩ := exists_step_sync env x hq configs
  have hempty := (h _ y hstep).1
  generalize hpubsub : y.pubsub = pubsub at hsyncs hempty
  cases hsyncs with
  | done hadded hrel => exact .inl ⟨_, _, hadded⟩
  | @failed pre post cfg added w₁ w' e hnew hadded herr =>
    -- an empty queue means that there was nothing to remove, and no addition before the failure
    obtain ⟨hrem, hadd⟩ := List.append_eq_nil_iff.mp hempty
    rw [PubSub.removals_eq, List.map_eq_nil_iff] at hrem
    obtain rfl := List.map_eq_nil_iff.mp hadd
    cases hadded with
    | nil => exact .inr ⟨hrem, cfg, post, e, _, hnew, herr⟩

/-- Calls other than a sync leave the `PubSub` as it is. -/
theorem changeQueue_of_step {r : HubReply} {y : Hub} {a : HubAction}
    (hq : x.pubsub.changeQueue = []) (h : x.Converges env a)
    (hstep : x.step env a = some (r, y)) : y.pubsub.changeQueue = [] := by
  cases a with
  | sync configs => exact (h r y hstep).1
  | publish payload =>
    obtain ⟨ok, -, hpubsub, -⟩ := step_publish hstep
    rw [hpubsub]
    exact hq
  | consume i o =>
    obtain ⟨-, res, z, -, rfl, -⟩ := step_consume hstep
    exact hq

end Hub

/-- **Convergence.** Along any run from an empty `PubSub`, in any world and with any failures: after
every sync the queue of changes is empty and, if the sync succeeded, the names are the configured
ones, if and only if no sync of the run fails after it has queued a change. -/
theorem convergence_iff (env : Env) (w : World) (actions : List HubAction) :
    Along (Hub.step env) (Hub.Converges env) (Hub.start w) actions ↔
      Along (Hub.step env) (Hub.FailsCleanly env) (Hub.start w) actions := by
  -- while the property holds the queue of changes is empty before each call
  refine along_congr (I := fun x => x.pubsub.changeQueue = []) (fun x a hq => ?_)
    (fun x a r y hq h hstep => Hub.changeQueue_of_step hq h hstep) rfl actions
  cases a with
  | sync configs => exact ⟨Hub.failsCleanly_of_converges hq, Hub.converges_of_failsCleanly hq⟩
  | publish payload => exact Iff.rfl
  | consume i o => exact Iff.rfl

/-- A configuration for which no publisher can be created. -/
def configEmpty : PubSubConfig where
  shmName := "/other"
  storageSizeBytes := 0

/-- A publisher is there; a sync wants another one instead and cannot create it; the next sync wants
the first one again, succeeds, and removes it. -/
theorem convergence_fails : ¬ ∀ (env : Env) (w : World) (actions : List HubAction),
    Along (Hub.step env) (Hub.Converges env) (Hub.start w) actions := by
  intro h
  -- the third call succeeds and leaves no publisher
  have hrun : ((follow (Hub.step Env.bump) (Hub.start World.fresh)
      [.sync [config64], .sync [configEmpty]]).bind fun x =>
        (x.step Env.bump (.sync [config64])).map fun z => (z.1.accepted, z.2.pubsub.names)) =
      some (true, []) := by decide +kernel
  obtain ⟨x, hx, hlast⟩ := Option.bind_eq_some_iff.mp hrun
  obtain ⟨⟨r, y⟩, hstep, hobs⟩ := Option.map_eq_some_iff.mp hlast
  obtain ⟨haccepted, hnames⟩ := Prod.mk.inj hobs
  have hall := h Env.bump World.fresh
    ([.sync [config64], .sync [configEmpty]] ++ [.sync [config64]])
  have hconverges := (Along.of_follow hall hx r y hstep).2 (HubReply.eq_of_accepted haccepted)
  have hmem := (hconverges "/queue").mpr (List.mem_singleton.mpr rfl)
  rw [show y.pubsub.names = [] from hnames] at hmem
  exact absurd hmem List.not_mem_nil

end PosixIpc
