import Gaffa.Broker.BrokerServer
import Gaffa.Broker.LeaderOffset

/-!
# Replica states of the stored topics

The topics are read back from the data directory when a broker starts, the replica states are not:
they are made by `CreateTopic` and live in memory.

* `Mirrors.next`: what creations, appends and restarts keep when each of them leaves the replica
  states behind that the served partitions need.
* `states_cover_iff`: every served partition has its replica state, with the next offset of the log
  at the leader, throughout exactly the runs without another step.
-/

set_option autoImplicit false

namespace Gaffa

open FileSystem DirTree Transition TopicStore PartitionReplicaState

variable {K : Crates} {config : BrokerConfig} {overflowChecks : Bool}

/-! ## A broker alone -/

/-- No other broker is registered. -/
def OnlySelf (c : ClusterMetadata) : Prop :=
  ∀ id info, c.brokers.get id = some info → id = c.brokerId ∧ info.id = id

section OnlySelf

variable {c : ClusterMetadata} {now : Nat} {order : List BrokerId}

theorem OnlySelf.alive (h : OnlySelf c) {info : BrokerInfo}
    (hmem : info ∈ c.getAliveBrokers now order) : info.id = c.brokerId := by
  obtain ⟨hmem, -⟩ := List.mem_filter.1 hmem
  obtain ⟨id, -, hget⟩ := List.mem_filterMap.1 hmem
  obtain ⟨hid, hinfo⟩ := h id info hget
  rw [hinfo, hid]

theorem OnlySelf.congr (h : OnlySelf c) {d : ClusterMetadata} (hbrokers : d.brokers = c.brokers)
    (hid : d.brokerId = c.brokerId) : OnlySelf d := by
  intro id info hget
  rw [hbrokers] at hget
  rw [hid]
  exact h id info hget

/-- A broker alone is assigned every partition. -/
theorem OnlySelf.assigned (h : OnlySelf c) {replicationFactor partition : Nat} {leader : BrokerId}
    {replicas : List BrokerId}
    (hassign : c.assignPartitionReplicas now order replicationFactor partition =
      .ok (leader, replicas)) : leader = c.brokerId ∧ c.brokerId ∈ replicas := by
  have hmem := ClusterMetadata.assignPartitionReplicas_leader hassign
  have hleader : leader = c.brokerId := by
    unfold ClusterMetadata.assignPartitionReplicas at hassign
    simp only at hassign
    split at hassign
    · cases hassign
      rfl
    · split at hassign
      · cases hassign
      · rename_i first rest heq
        cases hassign
        have hfirst : leader ∈ leader :: rest := List.mem_cons_self ..
        rw [← heq] at hfirst
        obtain ⟨i, -, hi⟩ := List.mem_filterMap.1 hfirst
        obtain ⟨info, hinfo, rfl⟩ := Option.map_eq_some_iff.1 hi
        exact h.alive (List.mem_of_getElem? hinfo)
  exact ⟨hleader, hleader ▸ hmem⟩

theorem onlySelf_newCluster (config : BrokerConfig) (now : Nat) :
    OnlySelf (Broker.newCluster config now) := by
  intro id info hget
  rcases Table.get_insert_cases hget with ⟨rfl, rfl⟩ | ⟨-, hget⟩
  · exact ⟨rfl, rfl⟩
  · cases hget

end OnlySelf

/-! ## Covered partitions -/

/-- Every served partition has a replica state; if this broker leads it, its recorded offset is the
next offset of the log. -/
def StatesCover (b : Broker) : Prop :=
  ∀ name topic id p, b.store.topics.get name = some topic → topic.partitions[id]? = some p →
    ∃ state, b.cluster.partitionStates.get (name, id) = some state ∧
      (state.leader = b.cluster.brokerId →
        state.replicaOffsets.get b.cluster.brokerId = some p.partition.nextOffset)

/-- Creations, appends and restarts, at any time. -/
def BrokerEvent.Stores : BrokerEvent → Prop
  | .request (.createTopic ..) _ => True
  | .request (.produce ..) _ => True
  | .request .. => False
  | .healthCheck _ => False
  | .pass _ => True
  | .restart _ => True

/-- A creation can assign replicas; an append that counts its first record succeeds; a restart finds
no topic. -/
def KeepsCover (K : Crates) (config : BrokerConfig) (b : Broker) : BrokerEvent → Prop
  | .request (.createTopic name partitions) io =>
    (∃ topic, (b.store.createTopic io.create config.dataDir name partitions).1 = .ok topic) →
      partitions = 0 ∨ b.cluster.getAliveBrokers b.now io.brokers = [] ∨
        config.replicationFactor ≠ 0
  | .request (.produce topic partition messages) io =>
    ∀ found p, b.store.find topic partition = .ok (found, p) →
      Partition.Moves K (p.answers b.store.tree io.append) messages p.partition →
      ∃ base, (appendTo K io.append messages b.store.tree p).1 = .ok base
  | .restart listing => ∀ name topic, ¬TopicOpens K config listing b.store.tree name topic
  | _ => True

/-- The broker leads what it serves, and its recorded offsets are those of the logs. -/
structure Mirrors (b : Broker) : Prop where
  alone : OnlySelf b.cluster
  known : b.Known
  leads : Leads b.cluster
  offsets : ∀ name topic id p, b.store.topics.get name = some topic →
    topic.partitions[id]? = some p → leaderEntry b.cluster (name, id) = some p.partition.nextOffset

section Steps

variable {b b' : Broker} {io : RequestIo}

theorem Mirrors.cover (h : Mirrors b) : StatesCover b := by
  intro name topic id p hget hp
  have hentry := h.offsets name topic id p hget hp
  obtain ⟨state, hstate, hoffset⟩ := Option.bind_eq_some_iff.1 hentry
  refine ⟨state, hstate, ?_⟩
  intro hleader
  rwa [hleader] at hoffset

/-- A broker that starts without topics. -/
theorem mirrors_new {listing : Listing} {now : Nat} {t : Tree}
    (hnew : Broker.new K config listing now t = .ok b)
    (hnone : ∀ name topic, ¬TopicOpens K config listing t name topic) : Mirrors b := by
  obtain ⟨hcluster, -, htopics⟩ := new_spec hnew
  refine ⟨hcluster ▸ onlySelf_newCluster config now, ?_, ?_, ?_⟩
  · intro key state hget
    rw [hcluster] at hget
    cases hget
  · intro key state hget
    rw [hcluster] at hget
    cases hget
  · intro name topic id p hget
    exact absurd ((htopics name topic).1 hget) (hnone name topic)

/-- A topic that opens has a partition, which has no replica state then. -/
theorem not_cover_new {listing : Listing} {now : Nat} {t : Tree} {name : String}
    {topic : StoredTopic} (hnew : Broker.new K config listing now t = .ok b)
    (hopens : TopicOpens K config listing t name topic) : ¬StatesCover b := by
  obtain ⟨hcluster, -, htopics⟩ := new_spec hnew
  intro hcover
  have hpos : 0 < topic.partitions.length :=
    List.length_pos_iff.2 (openTopic_ok hopens.2.2.2).2.1
  obtain ⟨state, hstate, -⟩ := hcover name topic 0 _ ((htopics name topic).2 hopens)
    (List.getElem?_eq_getElem hpos)
  rw [hcluster] at hstate
  cases hstate

/-- The offsets of the partitions, when one of them has been replaced. -/
theorem Mirrors.put_offsets {name : String} {id : Nat} {found : StoredTopic}
    {p q : StoredPartition} {c : ClusterMetadata} (h : Mirrors b)
    (hfind : b.store.find name id = .ok (found, p)) (t : Tree)
    (hentry : leaderEntry c (name, id) = some q.partition.nextOffset)
    (hothers : ∀ key, key ≠ (name, id) → leaderEntry c key = leaderEntry b.cluster key) :
    ∀ name' topic id' p', (b.store.put name found id q t).topics.get name' = some topic →
      topic.partitions[id']? = some p' →
      leaderEntry c (name', id') = some p'.partition.nextOffset := by
  obtain ⟨hname, -⟩ := find_ok_iff.1 hfind
  intro name' topic id' p' hget hp'
  rcases Table.get_insert_cases hget with ⟨rfl, rfl⟩ | ⟨hne, hget⟩
  · by_cases hid : id' = id
    · subst hid
      obtain ⟨hlt, -⟩ := List.getElem?_eq_some_iff.1 hp'
      rw [List.length_set] at hlt
      rw [List.getElem?_set_self hlt] at hp'
      cases hp'
      exact hentry
    · rw [List.getElem?_set_ne (Ne.symm hid)] at hp'
      rw [hothers _ (fun heq => hid (congrArg Prod.snd heq))]
      exact h.offsets _ _ _ _ hname hp'
  · rw [hothers _ (fun heq => hne (congrArg Prod.fst heq))]
    exact h.offsets _ _ _ _ hget hp'

/-- A new topic whose partitions have new states: the broker leads them, at offset zero. -/
theorem Mirrors.created {now : Nat} {order : List BrokerId} {replicationFactor : Nat}
    {name : String} {partitions : Nat} {c : ClusterMetadata} (h : Mirrors b)
    (hsets : SetsStates now order replicationFactor name (List.range partitions) b.cluster
      b.cluster c) (hbroker : c.brokerId = b.cluster.brokerId) (dataDir : Location) :
    Leads c ∧ ∀ name' topic id p,
      (b.store.topics.insert name (freshTopic dataDir name partitions)).get name' = some topic →
      topic.partitions[id]? = some p →
      leaderEntry c (name', id) = some p.partition.nextOffset := by
  -- a new state has an entry of its leader, which is this broker
  have hzero : ∀ {id leader replicas}, b.cluster.assignPartitionReplicas now order
      replicationFactor id = .ok (leader, replicas) → leader = c.brokerId ∧
        (PartitionReplicaState.new name id leader replicas).replicaOffsets.get leader = some 0 := by
    intro id leader replicas hassign
    obtain ⟨hleader, -⟩ := h.alone.assigned hassign
    have hmem := ClusterMetadata.assignPartitionReplicas_leader hassign
    exact ⟨hleader.trans hbroker.symm, (get_zeroOffsets replicas leader).trans (if_pos hmem)⟩
  constructor
  · intro key state hget
    rcases hsets key with ⟨-, -, leader, replicas, hassign, hnew⟩ | ⟨-, hkeep⟩
    · rw [hnew] at hget
      cases hget
      obtain ⟨hleader, hoffset⟩ := hzero hassign
      exact ⟨hleader, 0, hleader ▸ hoffset⟩
    · rw [hkeep] at hget
      rw [hbroker]
      exact h.leads key state hget
  · intro name' topic id p hget hp
    rcases Table.get_insert_cases hget with ⟨rfl, rfl⟩ | ⟨hne, hget⟩
    · obtain ⟨hlt, rfl⟩ := List.getElem?_eq_some_iff.1 hp
      simp only [freshTopic, List.length_map, List.length_range] at hlt
      rcases hsets (name', id) with ⟨-, -, leader, replicas, hassign, hnew⟩ | ⟨hnot, -⟩
      · rw [leaderEntry, hnew]
        refine (hzero hassign).2.trans ?_
        simp only [freshTopic, List.getElem_map]
        rfl
      · exact absurd ⟨rfl, List.mem_range.2 hlt⟩ hnot
    · rcases hsets (name', id) with ⟨hname, -⟩ | ⟨-, hkeep⟩
      · exact absurd hname hne
      · rw [leaderEntry, hkeep]
        exact h.offsets name' topic id p hget hp

/-- **A request** that leaves the replica states behind that are needed. -/
theorem Mirrors.request (h : Mirrors b) {request : Request} (hsized : request.Sized)
    (hstep : RequestStep K config overflowChecks io b request b')
    (hkeeps : KeepsCover K config b (.request request io)) (hother : ∀ id host port,
      request ≠ .registerBroker id host port) : Mirrors b' := by
  have hknown := h.known.request hsized hstep
  cases hstep with
  | reads _ => exact h
  | notCreated _ => exact ⟨h.alone, hknown, h.leads, h.offsets⟩
  | @created name partitions t hnew hok =>
    obtain ⟨hbrokers, hbroker, -, -⟩ := assignReplicas_frame b.now io.brokers
      config.replicationFactor name (List.range partitions) b.cluster
    rcases assignReplicas_cases (h.known.fresh hnew) b.now io.brokers config.replicationFactor
      partitions with ⟨hids, halive, hzero, -⟩ | hsets
    · rcases hkeeps ⟨_, congrArg Prod.fst hok⟩ with rfl | hnil | hpos
      · exact absurd rfl hids
      · exact absurd hnil halive
      · exact absurd hzero hpos
    · obtain ⟨hleads, hoffsets⟩ := h.created hsets hbroker config.dataDir
      exact ⟨h.alone.congr hbrokers hbroker, hknown, hleads, hoffsets⟩
  | notFound _ => exact h
  | @failed topic partition messages found p e hfind herror =>
    refine ⟨h.alone, hknown, h.leads, ?_⟩
    obtain ⟨hname, hp⟩ := find_ok_iff.1 hfind
    have hsame : (appendTo K io.append messages b.store.tree p).2.2.partition.nextOffset =
        p.partition.nextOffset := by
      by_contra hne
      obtain ⟨base, hbase⟩ := hkeeps found p hfind
        ((appendTo_nextOffset_ne_iff K io.append messages b.store.tree p).1 hne)
      rw [herror] at hbase
      cases hbase
    refine h.put_offsets hfind _ ?_ fun key _ => rfl
    rw [hsame]
    exact h.offsets topic found partition p hname hp
  | @appended topic partition messages found p base hfind hbase =>
    obtain ⟨hname, hp⟩ := find_ok_iff.1 hfind
    obtain ⟨hleads, hbroker, -, hentry⟩ := h.leads.update overflowChecks topic partition
      b.cluster.brokerId (base + messages.length)
    obtain ⟨hbrokers, hid, -⟩ := updateLeaderOffset_frame overflowChecks b.cluster topic
      partition (base + messages.length)
    refine ⟨h.alone.congr hbrokers hid, hknown, hleads, h.put_offsets hfind _ ?_ ?_⟩
    · refine (hentry (topic, partition)).trans ?_
      rw [if_pos ⟨rfl, rfl⟩, h.offsets topic found partition p hname hp,
        (appendTo_base hbase).2.2.2]
      rfl
    · intro key hne
      exact (hentry key).trans (if_neg fun hand => hne hand.1)
  | registered id host port => exact absurd rfl (hother id host port)

/-- **A step** that leaves the replica states behind that are needed. -/
theorem Mirrors.next (h : Mirrors b) {e : BrokerEvent} (hstores : e.Stores)
    (hstep : brokerNext K config overflowChecks b e = some b')
    (hkeeps : KeepsCover K config b e) : Mirrors b' := by
  cases e with
  | request request io =>
    obtain ⟨-, hsized, -, -, hrequest⟩ := next_request hstep
    refine h.request hsized hrequest hkeeps ?_
    rintro id host port rfl
    exact hstores
  | healthCheck io => exact absurd hstores id
  | pass now =>
    obtain ⟨-, rfl⟩ := next_pass hstep
    exact ⟨h.alone, h.known, h.leads, h.offsets⟩
  | restart listing => exact mirrors_new (next_restart hstep).2 hkeeps

/-- A request after which the partitions are covered is one that keeps them covered. -/
theorem Mirrors.request_keeps (h : Mirrors b) {request : Request}
    (hrequest : RequestStep K config overflowChecks io b request b') (hcover : StatesCover b') :
    KeepsCover K config b (.request request io) := by
  cases hrequest with
  | reads hreads =>
    cases request with
    | createTopic name partitions => exact absurd hreads id
    | produce topic partition messages => exact absurd hreads id
    | _ => exact trivial
  | @notCreated name partitions e t herror =>
    rintro ⟨topic, hok⟩
    rw [herror] at hok
    cases hok
  | @created name partitions t hnew hok =>
    intro _
    by_contra hnot
    push Not at hnot
    obtain ⟨hids, halive, hzero⟩ := hnot
    have hpos : 0 < (freshTopic config.dataDir name partitions).partitions.length := by
      simpa [freshTopic] using Nat.pos_of_ne_zero hids
    obtain ⟨state, hstate, -⟩ := hcover name _ 0 _ (Table.get_insert_self ..)
      (List.getElem?_eq_getElem hpos)
    rcases assignReplicas_cases (h.known.fresh hnew) b.now io.brokers config.replicationFactor
      partitions with ⟨-, -, -, heq⟩ | hsets
    · rw [heq, h.known.fresh hnew] at hstate
      cases hstate
    · rcases hsets (name, 0) with ⟨-, -, leader, replicas, hassign, -⟩ | ⟨-, heq⟩
      · obtain ⟨e, he⟩ := (assignPartitionReplicas_error_iff 0).2 ⟨halive, hzero⟩
        rw [hassign] at he
        cases he
      · rw [heq, h.known.fresh hnew] at hstate
        cases hstate
  | @notFound topic partition messages e herror =>
    intro found p hfind
    rw [herror] at hfind
    cases hfind
  | @failed topic partition messages found p e hfind herror =>
    intro found' p' hfind' hmoves
    rw [hfind] at hfind'
    cases hfind'
    obtain ⟨hname, hp⟩ := find_ok_iff.1 hfind
    have hentry := h.offsets topic found partition p hname hp
    have hput := find_ok_iff.1 (find_put hfind (appendTo K io.append messages b.store.tree p).2.2
      (appendTo K io.append messages b.store.tree p).2.1)
    obtain ⟨state, hstate, hoffset⟩ := hcover topic _ partition _ hput.1 hput.2
    obtain ⟨hleader, -⟩ := h.leads _ state hstate
    rw [leaderEntry, hstate, Option.bind_some, hleader, hoffset hleader,
      Option.some_inj] at hentry
    exact absurd hentry
      ((appendTo_nextOffset_ne_iff K io.append messages b.store.tree p).2 hmoves)
  | @appended topic partition messages found p base hfind hbase =>
    intro found' p' hfind' _
    rw [hfind] at hfind'
    cases hfind'
    exact ⟨base, hbase⟩
  | registered id host port => exact trivial

/-- A step after which the partitions are covered is one that keeps them covered. -/
theorem Mirrors.keeps (h : Mirrors b) {e : BrokerEvent}
    (hstep : brokerNext K config overflowChecks b e = some b') (hcover : StatesCover b') :
    KeepsCover K config b e := by
  cases e with
  | request request io =>
    obtain ⟨-, -, -, -, hrequest⟩ := next_request hstep
    exact h.request_keeps hrequest hcover
  | healthCheck io => exact trivial
  | pass now => exact trivial
  | restart listing =>
    exact fun name topic hopens => not_cover_new (next_restart hstep).2 hopens hcover

end Steps

/-- **The replica states cover the stored topics** throughout exactly the runs whose starts find no
topic and whose creations and appends leave no partition behind. -/
theorem states_cover_iff {listing : Listing} {now : Nat} {t : Tree} {b : Broker}
    (hnew : Broker.new K config listing now t = .ok b) {tr : List (BrokerEvent × Broker)}
    (hrun : Run (Steps (brokerNext K config overflowChecks)) b tr)
    (hstores : EachStep (fun _ e _ => e.Stores) b tr) :
    Throughout StatesCover b tr ↔ (∀ name topic, ¬TopicOpens K config listing t name topic) ∧
      EachStep (fun b e _ => KeepsCover K config b e) b tr := by
  by_cases hnone : ∀ name topic, ¬TopicOpens K config listing t name topic
  · refine Iff.trans ?_ (and_iff_right hnone).symm
    refine throughout_iff (I := Mirrors) ?_ (fun s h => h.cover) ?_ (mirrors_new hnew hnone)
      (hrun.and hstores)
    · intro s e s' h hstep hkeeps
      exact h.next hstep.2 hstep.1 hkeeps
    · intro s e s' h hstep hcover
      exact h.keeps hstep.1 hcover
  · refine iff_of_false ?_ (fun h => hnone h.1)
    push Not at hnone
    obtain ⟨name, topic, hopens⟩ := hnone
    exact fun h => not_cover_new hnew hopens h.first

/-! ## Two runs -/

/-- A topic of one partition, and a batch for it. -/
def storedEvents : List BrokerEvent :=
  [.request (.createTopic "a" 1) (.inOrder [1] [] [] fun _ => []),
    .request (.produce "a" 0 [⟨none, [7], 0⟩]) (.inOrder [1] ["a"] [("a", 0)] fun _ => [1]),
    .pass (2 * brokerTimeout)]

/-- An append that succeeds if it finds its partition, or another event without a restart. -/
def appends (b : Broker) : BrokerEvent → Bool
  | .restart _ => false
  | .request (.produce topic partition messages) io =>
    match b.store.find topic partition with
    | .error _ => true
    | .ok (_, p) => (appendTo plainCrates io.append messages b.store.tree p).1.isOk
  | _ => true

theorem states_cover_stored : ∃ b tr, localRun (localConfig 1 1) storedEvents = some (b, tr) ∧
    Throughout StatesCover b tr := by
  obtain ⟨⟨b, tr⟩, hlocal⟩ := Option.isSome_iff_exists.1
    (show (localRun (localConfig 1 1) storedEvents).isSome = true by decide +kernel)
  have happends : ∀ r ∈ localRun (localConfig 1 1) storedEvents,
      EachStep (fun s e _ => appends s e = true) r.1 r.2 := by
    decide +kernel
  obtain ⟨hnew, htr⟩ := localRun_spec hlocal
  have hlabels : EachStep (fun _ e _ => e.Stores) b tr := by
    refine eachStep_of_trace htr ?_
    simp [storedEvents, BrokerEvent.Stores]
  refine ⟨b, tr, hlocal, (states_cover_iff hnew (run_of_trace htr) hlabels).2 ⟨?_, ?_⟩⟩
  · rintro name topic ⟨-, hmem, -⟩
    cases hmem
  · refine ((happends (b, tr) hlocal).and hlabels).mono ?_
    rintro s e s' ⟨happend, hstores⟩
    cases e with
    | request request io =>
      cases request with
      | createTopic name partitions => exact fun _ => .inr (.inr Nat.one_ne_zero)
      | produce topic partition messages =>
        intro found p hfind _
        unfold appends at happend
        simp only [hfind] at happend
        cases hbase : (appendTo plainCrates io.append messages s.store.tree p).1 with
        | ok base => exact ⟨base, rfl⟩
        | error e =>
          rw [hbase] at happend
          cases happend
      | _ => exact absurd hstores id
    | restart listing => cases happend
    | _ => exact trivial

/-- The listing of the data directory that holds the topic. -/
def storedListing : Listing := fun dir =>
  if dir = [] then [['d']]
  else if dir = [['d']] then [['a'], Broker.offsetsName]
  else if dir = [['d'], ['a']] then [partitionName 0]
  else if dir = [['d'], ['a'], partitionName 0] then [logPath 0, indexPath 0]
  else []

/-- The topic is made, and the broker starts again. -/
def lostEvents : List BrokerEvent :=
  [.request (.createTopic "a" 1) (.inOrder [1] [] [] fun _ => []), .restart storedListing]

theorem states_lost : ¬ ∀ b tr,
    Broker.new plainCrates (localConfig 1 1) emptyListing 0 emptyDataDir = .ok b →
    Run (Steps (brokerNext plainCrates (localConfig 1 1) true)) b tr →
    EachStep (fun _ e _ => e.Stores) b tr → Throughout StatesCover b tr := by
  intro h
  obtain ⟨⟨b, tr⟩, hlocal⟩ := Option.isSome_iff_exists.1
    (show (localRun (localConfig 1 1) lostEvents).isSome = true by decide +kernel)
  have hlost : ∀ r ∈ localRun (localConfig 1 1) lostEvents,
      (∃ topic ∈ (last r.1 r.2).store.topics.get "a", topic.partitions ≠ []) ∧
        ((last r.1 r.2).cluster.partitionStates.get ("a", 0)).isNone = true := by
    decide +kernel
  obtain ⟨hnew, htr⟩ := localRun_spec hlocal
  have hlabels : EachStep (fun _ e _ => e.Stores) b tr := by
    refine eachStep_of_trace htr ?_
    simp [lostEvents, BrokerEvent.Stores]
  obtain ⟨⟨topic, htopic, hne⟩, hnone⟩ := hlost (b, tr) hlocal
  obtain ⟨state, hstate, -⟩ := (h b tr hnew (run_of_trace htr) hlabels).at_last "a" topic 0 _
    htopic (List.getElem?_eq_getElem (List.length_pos_iff.2 hne))
  rw [hstate] at hnone
  cases hnone

end Gaffa
