import Gaffa.Broker.Coverage

/-!
# The broker's check of itself

A broker registers itself when it starts, which counts as a heartbeat, and sends no further ones.
The health check holds it dead like any other broker whose last heartbeat is too old.

* `Reigns.next`: what a broker keeps while its last registration is recent.
* `never_deposed_iff`: the broker is alive and no partition changes its leader or epoch, on exactly
  the runs on which it is never longer than the timeout since a registration.
-/

set_option autoImplicit false

namespace Gaffa

open Transition TopicStore PartitionReplicaState

variable {K : Crates} {config : BrokerConfig} {overflowChecks : Bool}

/-- No partition loses its leader or goes into another epoch. -/
def KeepsLeaders (b b' : Broker) : Prop :=
  ∀ key state, b.cluster.partitionStates.get key = some state →
    ∃ state', b'.cluster.partitionStates.get key = some state' ∧
      state'.leader = state.leader ∧ state'.leaderEpoch = state.leaderEpoch

/-- The broker is one of the alive ones, in whatever order they are listed. -/
def SelfAlive (b : Broker) : Prop :=
  ∀ order, b.cluster.brokers.Order order →
    b.cluster.brokerId ∈ (b.cluster.getAliveBrokers b.now order).map BrokerInfo.id

/-- What a running broker meets when no other one registers. -/
def BrokerEvent.Single (brokerId : BrokerId) : BrokerEvent → Prop
  | .request (.registerBroker id _ _) _ => id = brokerId
  | .restart _ => False
  | _ => True

/-- The broker's last registration is recent at a time. -/
def Current (now : Nat) (c : ClusterMetadata) : Prop :=
  ∃ info ∈ c.brokers.get c.brokerId, info.isAlive now c.brokerTimeout = true

instance decidableCurrent (now : Nat) (c : ClusterMetadata) : Decidable (Current now c) :=
  inferInstanceAs (Decidable (∃ info ∈ _, _))

theorem Current.congr {now : Nat} {c d : ClusterMetadata} (h : Current now c)
    (hbrokers : d.brokers = c.brokers) (hid : d.brokerId = c.brokerId)
    (htimeout : d.brokerTimeout = c.brokerTimeout) : Current now d := by
  unfold Current
  rwa [hbrokers, hid, htimeout]

/-- Time does not go further than the timeout allows. -/
def InTime (b : Broker) : BrokerEvent → Prop
  | .pass now => Current now b.cluster
  | _ => True

instance decidableInTime (b : Broker) : ∀ e : BrokerEvent, Decidable (InTime b e)
  | .pass _ => inferInstanceAs (Decidable (Current _ _))
  | .request .. => isTrue trivial
  | .healthCheck _ => isTrue trivial
  | .restart _ => isTrue trivial

theorem KeepsLeaders.refl (b : Broker) : KeepsLeaders b b :=
  fun _ state h => ⟨state, h, rfl, rfl⟩

theorem KeepsLeaders.trans {b₁ b₂ b₃ : Broker} (h : KeepsLeaders b₁ b₂) (h' : KeepsLeaders b₂ b₃) :
    KeepsLeaders b₁ b₃ := by
  intro key state hget
  obtain ⟨state₂, hget₂, hleader, hepoch⟩ := h key state hget
  obtain ⟨state₃, hget₃, hleader', hepoch'⟩ := h' key state₂ hget₂
  exact ⟨state₃, hget₃, hleader'.trans hleader, hepoch'.trans hepoch⟩

/-- A broker alone is listed as alive exactly when its last registration is recent. -/
theorem selfAlive_iff {b : Broker} (halone : OnlySelf b.cluster) :
    SelfAlive b ↔ Current b.now b.cluster := by
  constructor
  · intro h
    obtain ⟨order, horder⟩ := b.cluster.brokers.exists_order
    obtain ⟨info, hinfo, -⟩ := List.mem_map.1 (h order horder)
    obtain ⟨hmem, halive⟩ := List.mem_filter.1 hinfo
    obtain ⟨id, -, hget⟩ := List.mem_filterMap.1 hmem
    obtain ⟨rfl, -⟩ := halone id info hget
    exact ⟨info, hget, halive⟩
  · rintro ⟨info, hget, halive⟩ order horder
    refine List.mem_map.2 ⟨info, List.mem_filter.2 ⟨?_, halive⟩, (halone _ info hget).2⟩
    exact List.mem_filterMap.2 ⟨_, horder.mem_iff.2 ⟨info, hget⟩, hget⟩

/-- A broker alone that leads all partitions and counts as alive. -/
structure Reigns (config : BrokerConfig) (b : Broker) : Prop where
  brokerId : b.cluster.brokerId = config.brokerId
  timeout : b.cluster.brokerTimeout = brokerTimeout
  alone : OnlySelf b.cluster
  known : b.Known
  leader : ∀ key state, b.cluster.partitionStates.get key = some state →
    state.leader = b.cluster.brokerId
  current : Current b.now b.cluster

section Steps

variable {b b' : Broker} {io : RequestIo}

theorem current_registered (b : Broker) (host : String) (port : Nat)
    (htimeout : b.cluster.brokerTimeout = brokerTimeout) : Current b.now
      (b.cluster.registerBroker (BrokerInfo.new b.now b.cluster.brokerId host port)) := by
  refine ⟨_, Table.get_insert_self .., ?_⟩
  have hpos : b.now - b.now < brokerTimeout := by
    rw [Nat.sub_self]
    decide
  exact decide_eq_true (htimeout ▸ hpos)

theorem reigns_new {listing : DirTree.Listing} {now : Nat} {t : DirTree.Tree}
    (hnew : Broker.new K config listing now t = .ok b) : Reigns config b := by
  obtain ⟨hcluster, hnow, -⟩ := new_spec hnew
  have hnone : ∀ key, b.cluster.partitionStates.get key = none := by
    rw [hcluster]
    exact fun _ => rfl
  refine ⟨by rw [hcluster]; rfl, by rw [hcluster]; rfl, hcluster ▸ onlySelf_newCluster config now,
    ?_, ?_, ?_⟩
  · intro key state hget
    rw [hnone] at hget
    cases hget
  · intro key state hget
    rw [hnone] at hget
    cases hget
  · rw [hcluster, hnow]
    exact current_registered ⟨b.store, ClusterMetadata.new config.brokerId brokerTimeout
      config.maxIsrLag, now⟩ config.host config.port rfl

theorem updateReplicaOffset_epoch (overflowChecks : Bool) (s : PartitionReplicaState)
    (id : BrokerId) (offset lag : Nat) :
    (s.updateReplicaOffset overflowChecks id offset lag).2.leader = s.leader ∧
      (s.updateReplicaOffset overflowChecks id offset lag).2.leaderEpoch = s.leaderEpoch := by
  rcases updateReplicaOffset_cases overflowChecks id offset lag s with
    ⟨e, -, heq⟩ | ⟨-, heq⟩ | ⟨-, heq⟩
  · rw [heq]
    exact ⟨rfl, rfl⟩
  · rw [heq, updateHighWatermark_leader, updateHighWatermark_leaderEpoch]
    exact ⟨rfl, rfl⟩
  · rw [heq, updateHighWatermark_leader, updateHighWatermark_leaderEpoch]
    exact ⟨rfl, rfl⟩

/-- **A request** changes no leader, and the broker goes on. -/
theorem Reigns.request (h : Reigns config b) {request : Request} (hsized : request.Sized)
    (hstep : RequestStep K config overflowChecks io b request b')
    (hsingle : ∀ id host port, request = .registerBroker id host port → id = config.brokerId) :
    Reigns config b' ∧ KeepsLeaders b b' := by
  have hknown := h.known.request hsized hstep
  cases hstep with
  | reads _ => exact ⟨h, KeepsLeaders.refl b⟩
  | notCreated _ =>
    exact ⟨⟨h.brokerId, h.timeout, h.alone, hknown, h.leader, h.current⟩, KeepsLeaders.refl b⟩
  | @created name partitions t hnew _ =>
    have hfresh := h.known.fresh hnew
    obtain ⟨hbrokers, hid, htimeout, -⟩ := assignReplicas_frame b.now io.brokers
      config.replicationFactor name (List.range partitions) b.cluster
    refine ⟨⟨hid.trans h.brokerId, htimeout.trans h.timeout, h.alone.congr hbrokers hid, hknown, ?_,
      h.current.congr hbrokers hid htimeout⟩, ?_⟩
    · intro key state hget
      rw [hid]
      rcases assignReplicas_cases hfresh b.now io.brokers config.replicationFactor partitions with
        ⟨-, -, -, heq⟩ | hsets
      · rw [heq] at hget
        exact h.leader key state hget
      · rcases hsets key with ⟨-, -, leader, replicas, hassign, hset⟩ | ⟨-, hkeep⟩
        · rw [hset] at hget
          cases hget
          exact (h.alone.assigned hassign).1
        · rw [hkeep] at hget
          exact h.leader key state hget
    · intro key state hget
      have hkey : key.1 ≠ name := by
        rintro rfl
        rw [← Prod.mk.eta (p := key), hfresh] at hget
        cases hget
      exact ⟨state, (assignReplicas_others hfresh _ _ _ partitions hkey).trans hget, rfl, rfl⟩
  | notFound _ => exact ⟨h, KeepsLeaders.refl b⟩
  | failed _ _ =>
    exact ⟨⟨h.brokerId, h.timeout, h.alone, hknown, h.leader, h.current⟩, KeepsLeaders.refl b⟩
  | @appended topic partition messages found p base _ _ =>
    obtain ⟨hbrokers, hid, htimeout, -⟩ := updateLeaderOffset_frame overflowChecks b.cluster topic
      partition (base + messages.length)
    refine ⟨⟨hid.trans h.brokerId, htimeout.trans h.timeout, h.alone.congr hbrokers hid, hknown, ?_,
      h.current.congr hbrokers hid htimeout⟩, ?_⟩
    · intro key state hget
      rw [get_updateLeaderOffset] at hget
      rw [hid]
      split at hget
      · obtain ⟨old, hold, rfl⟩ := Option.map_eq_some_iff.1 hget
        exact (updateReplicaOffset_epoch ..).1.trans (h.leader key old hold)
      · exact h.leader key state hget
    · intro key state hget
      rw [get_updateLeaderOffset]
      split
      · exact ⟨_, by rw [hget]; rfl, updateReplicaOffset_epoch ..⟩
      · exact ⟨state, hget, rfl, rfl⟩
  | registered id host port =>
    obtain rfl := hsingle id host port rfl
    refine ⟨⟨h.brokerId, h.timeout, ?_, hknown, h.leader, ?_⟩, KeepsLeaders.refl b⟩
    · intro id info hget
      rcases Table.get_insert_cases hget with ⟨rfl, rfl⟩ | ⟨-, hget⟩
      · exact ⟨h.brokerId.symm, rfl⟩
      · exact h.alone id info hget
    · rw [← h.brokerId]
      exact current_registered b host port h.timeout

/-- A health check that finds all leaders alive elects none. -/
theorem electionLoop_alive {alive : List BrokerId} {c : ClusterMetadata} :
    ∀ {states : List PartitionReplicaState}
      {elections : Nat → List PartitionKey × (PartitionKey → BrokerId)},
      (∀ state ∈ states, state.leader ∈ alive) →
      Broker.electionLoop overflowChecks alive states elections c = some c
  | [], _, _ => rfl
  | state :: states, elections, h => by
    obtain ⟨hstate, hrest⟩ := List.forall_mem_cons.1 h
    rw [Broker.electionLoop, if_pos hstate, electionLoop_alive hrest]

/-- **A health check** changes nothing. -/
theorem Reigns.healthCheck (h : Reigns config b) {io : HealthIo}
    (hstep : brokerNext K config overflowChecks b (.healthCheck io) = some b') : b' = b := by
  obtain ⟨horder, -, c, hcheck, rfl⟩ := next_healthCheck hstep
  have halive := (selfAlive_iff h.alone).2 h.current io.brokers horder
  have hsame : b.checkBrokerHealth overflowChecks io = some b.cluster := by
    apply electionLoop_alive
    intro state hmem
    obtain ⟨key, -, hget⟩ := List.mem_filterMap.1 hmem
    rw [h.leader key state hget]
    exact halive
  rw [hsame] at hcheck
  cases hcheck
  rfl

/-- **A step** of a broker that goes on reigning. -/
theorem Reigns.next (h : Reigns config b) {e : BrokerEvent} (hsingle : e.Single config.brokerId)
    (hstep : brokerNext K config overflowChecks b e = some b') (hintime : InTime b e) :
    Reigns config b' := by
  cases e with
  | request request io =>
    obtain ⟨-, hsized, -, -, hrequest⟩ := next_request hstep
    refine (h.request hsized hrequest ?_).1
    rintro id host port rfl
    exact hsingle
  | healthCheck io => exact h.healthCheck hstep ▸ h
  | pass now =>
    obtain ⟨-, rfl⟩ := next_pass hstep
    exact ⟨h.brokerId, h.timeout, h.alone, h.known, h.leader, hintime⟩
  | restart listing => exact absurd hsingle id

/-- A step keeps the leaders and leaves the broker alive exactly when it is in time. -/
theorem Reigns.step_iff (h : Reigns config b) {e : BrokerEvent}
    (hsingle : e.Single config.brokerId)
    (hstep : brokerNext K config overflowChecks b e = some b') :
    KeepsLeaders b b' ∧ SelfAlive b' ↔ InTime b e := by
  cases e with
  | request request io =>
    obtain ⟨-, hsized, -, -, hrequest⟩ := next_request hstep
    have hkept := h.request hsized hrequest (by rintro id host port rfl; exact hsingle)
    exact iff_of_true ⟨hkept.2, (selfAlive_iff hkept.1.alone).2 hkept.1.current⟩ trivial
  | healthCheck io =>
    rw [h.healthCheck hstep]
    exact iff_of_true ⟨KeepsLeaders.refl b, (selfAlive_iff h.alone).2 h.current⟩ trivial
  | pass now =>
    obtain ⟨-, rfl⟩ := next_pass hstep
    refine (and_iff_right (KeepsLeaders.refl b)).trans ?_
    exact selfAlive_iff (b := { b with now := now }) h.alone
  | restart listing => exact absurd hsingle id

end Steps

/-- **A broker is never deposed by its own health check**, on exactly the runs on which time never
goes past the timeout of its last registration. -/
theorem never_deposed_iff {listing : DirTree.Listing} {now : Nat} {t : DirTree.Tree} {b : Broker}
    (hnew : Broker.new K config listing now t = .ok b) {tr : List (BrokerEvent × Broker)}
    (hrun : Run (Steps (brokerNext K config overflowChecks)) b tr)
    (hsingle : EachStep (fun _ e _ => e.Single config.brokerId) b tr) :
    (states b tr).Pairwise KeepsLeaders ∧ Throughout SelfAlive b tr ↔
      EachStep (fun b e _ => InTime b e) b tr := by
  have hreigns := reigns_new hnew
  rw [pairwise_states_iff (R := KeepsLeaders) fun _ _ _ h h' => h.trans h',
    throughout_iff_eachStep]
  have hfirst : SelfAlive b := (selfAlive_iff hreigns.alone).2 hreigns.current
  have hsteps := eachStep_iff (I := Reigns config) (P := fun b e _ => InTime b e)
    (R := fun s _ s' => KeepsLeaders s s' ∧ SelfAlive s')
    (fun s e s' h hstep hintime => h.next hstep.2 hstep.1 hintime)
    (fun s e s' h hstep => h.step_iff hstep.2 hstep.1) hreigns (hrun.and hsingle)
  rw [← hsteps]
  constructor
  · rintro ⟨hleaders, -, halive⟩
    exact hleaders.and halive
  · intro h
    exact ⟨h.mono fun _ _ _ hand => hand.1, hfirst, h.mono fun _ _ _ hand => hand.2⟩

/-! ## Two runs -/

/-- Broker 1 makes a topic, and a health check follows after a time. -/
def checkedAfter (events : List BrokerEvent) : List BrokerEvent :=
  .request (.createTopic "a" 1) (.inOrder [1] [] [] fun _ => []) :: events ++
    [.healthCheck ⟨[1], [("a", 0)], fun _ => ([("a", 0)], fun _ => 1)⟩]

/-- The broker is registered again after 20 seconds, by a client. -/
def registeredAgain : List BrokerEvent :=
  checkedAfter [.pass (20 * 10 ^ 9), .request (.registerBroker 1 "localhost" 9092)
    (.inOrder [1] ["a"] [("a", 0)] fun _ => [1]), .pass (40 * 10 ^ 9)]

theorem never_deposed_registered : ∃ b tr,
    localRun (localConfig 1 1) registeredAgain = some (b, tr) ∧
      (states b tr).Pairwise KeepsLeaders ∧ Throughout SelfAlive b tr := by
  obtain ⟨⟨b, tr⟩, hlocal⟩ := Option.isSome_iff_exists.1
    (show (localRun (localConfig 1 1) registeredAgain).isSome = true by decide +kernel)
  have hintime : ∀ r ∈ localRun (localConfig 1 1) registeredAgain,
      EachStep (fun s e _ => InTime s e) r.1 r.2 := by
    decide +kernel
  obtain ⟨hnew, htr⟩ := localRun_spec hlocal
  have hlabels : EachStep (fun _ e _ => e.Single (localConfig 1 1).brokerId) b tr := by
    refine eachStep_of_trace htr ?_
    simp [registeredAgain, checkedAfter, BrokerEvent.Single, localConfig]
  exact ⟨b, tr, hlocal,
    (never_deposed_iff hnew (run_of_trace htr) hlabels).2 (hintime (b, tr) hlocal)⟩

/-- After 30 seconds the broker counts as dead, and elects itself in the next epoch. -/
theorem deposes_itself : ¬ ∀ b tr,
    Broker.new plainCrates (localConfig 1 1) emptyListing 0 emptyDataDir = .ok b →
    Run (Steps (brokerNext plainCrates (localConfig 1 1) true)) b tr →
    EachStep (fun _ e _ => e.Single 1) b tr →
    (states b tr).Pairwise KeepsLeaders ∧ Throughout SelfAlive b tr := by
  intro h
  obtain ⟨⟨b, tr⟩, hlocal⟩ := Option.isSome_iff_exists.1
    (show (localRun (localConfig 1 1) (checkedAfter [.pass brokerTimeout])).isSome = true by
      decide +kernel)
  have hbumped : ∀ r ∈ localRun (localConfig 1 1) (checkedAfter [.pass brokerTimeout]),
      ¬EachStep (fun s _ s' => ∀ state ∈ s.cluster.partitionStates.get ("a", 0),
        ∃ state' ∈ s'.cluster.partitionStates.get ("a", 0),
          state'.leaderEpoch = state.leaderEpoch) r.1 r.2 := by
    decide +kernel
  obtain ⟨hnew, htr⟩ := localRun_spec hlocal
  have hlabels : EachStep (fun _ e _ => e.Single 1) b tr := by
    refine eachStep_of_trace htr ?_
    simp [checkedAfter, BrokerEvent.Single]
  obtain ⟨hleaders, -⟩ := h b tr hnew (run_of_trace htr) hlabels
  rw [pairwise_states_iff (R := KeepsLeaders) fun _ _ _ h h' => h.trans h'] at hleaders
  refine hbumped (b, tr) hlocal (hleaders.mono ?_)
  intro s e s' hkeeps state hstate
  obtain ⟨state', hstate', -, hepoch⟩ := hkeeps ("a", 0) state hstate
  exact ⟨state', hstate', hepoch⟩

end Gaffa
