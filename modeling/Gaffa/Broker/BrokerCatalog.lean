import Gaffa.Broker.Coverage
import Gaffa.Storage.Catalog

/-!
# The broker as a catalog of logs

`process_request` of `broker/src/server.rs` over the topic manager and its files, with all requests, the
health checks and restarts by `BrokerServer::new`.

* `Cataloged.offsets`: the directory of the offset manager leaves the topics alone.
* `InStep.next`: every event keeps the broker in step with the catalog of what it has stored.
* `broker_keeps_catalog`: over whole runs.
-/

set_option autoImplicit false

namespace Gaffa

open FileSystem DirTree Transition TopicStore

/-! ## The directory of the offset manager -/

section Offsets

variable {K : Crates} {dataDir : Location} {t : Tree}

/-- Of a path of plain names, only directories on the way are made. -/
theorem get_mkdirAll_normal (loc : Location) {names : List Name} : ∀ (at_ : Location) (t : Tree),
    (∀ name ∈ names, Normal name) → (mkdirAll at_ names t).2.get loc = t.get loc ∨
      t.get loc = none ∧ (mkdirAll at_ names t).2.get loc = some Table.empty ∧ loc <+: at_ ++ names := by
  induction names with
  | nil => exact fun _ _ _ => .inl rfl
  | cons name names ih =>
    intro at_ t hnames
    obtain ⟨⟨hnil, hdot, hdots⟩, hrest⟩ := List.forall_mem_cons.1 hnames
    unfold mkdirAll
    rw [if_neg (by simp [hnil, hdot]), if_neg hdots]
    split
    · exact .inl rfl
    · have happ : at_ ++ name :: names = at_ ++ [name] ++ names := by simp
      have hmade := get_mkdir (at_ ++ [name]) loc t
      by_cases hloc : loc = at_ ++ [name]
      · rw [if_pos hloc] at hmade
        rcases ih (at_ ++ [name]) (mkdir (at_ ++ [name]) t) hrest with hsame | ⟨hnone, -⟩
        · rw [hsame, hmade, files, hloc]
          cases hget : t.get (at_ ++ [name]) with
          | some content => exact .inl rfl
          | none => exact .inr ⟨rfl, rfl, happ ▸ List.prefix_append ..⟩
        · rw [hmade] at hnone
          cases hnone
      · rw [if_neg hloc] at hmade
        rcases ih (at_ ++ [name]) (mkdir (at_ ++ [name]) t) hrest with
          hsame | ⟨hnone, hnew, hbefore⟩
        · exact .inl (hsame.trans hmade)
        · exact .inr ⟨hmade ▸ hnone, hnew, happ ▸ hbefore⟩

/-- Making a directory in the data directory changes nothing below the data directory but that. -/
theorem get_mkdirAll_below (hdata : ∀ name ∈ dataDir, Normal name) {x : Name} (hx : Normal x)
    (hroot : isDir t dataDir = true) (below : Location) :
    (mkdirAll [] (dataDir ++ [x]) t).2.get (dataDir ++ below) = t.get (dataDir ++ below) ∨
      below = [x] ∧ (mkdirAll [] (dataDir ++ [x]) t).2.get (dataDir ++ below) = some Table.empty := by
  have hnames : ∀ name ∈ dataDir ++ [x], Normal name := by
    intro name hmem
    rcases List.mem_append.1 hmem with hmem | hmem
    · exact hdata name hmem
    · rw [List.mem_singleton.1 hmem]
      exact hx
  rcases get_mkdirAll_normal (dataDir ++ below) [] t hnames with
    hsame | ⟨hnone, hnew, hbefore⟩
  · exact .inl hsame
  · rw [List.nil_append, List.prefix_append_right_inj] at hbefore
    rcases List.prefix_cons_iff.1 hbefore with rfl | ⟨rest, rfl, hrest⟩
    · rw [List.append_nil] at hnone
      rw [DirTree.isDir, hnone] at hroot
      cases hroot
    · rw [List.prefix_nil.1 hrest] at hnew ⊢
      exact .inr ⟨rfl, hnew⟩

theorem Laid.makes (h : Laid dataDir t) (hdata : ∀ name ∈ dataDir, Normal name) {x : Name}
    (hx : Normal x ∧ '/' ∉ x) :
    Laid dataDir (mkdirAll [] (dataDir ++ [x]) t).2 ∧ ∀ y i,
      contents (mkdirAll [] (dataDir ++ [x]) t).2 dataDir y i = contents t dataDir y i := by
  have hbelow := get_mkdirAll_below hdata hx.1 (isDir_iff.2 ⟨_, h.root⟩)
  have hsame : ∀ below, below ≠ [x] →
      (mkdirAll [] (dataDir ++ [x]) t).2.get (dataDir ++ below) = t.get (dataDir ++ below) :=
    fun below hne => (hbelow below).resolve_right fun hnew => hne hnew.1
  refine ⟨⟨?_, fun y content hget => ?_, fun y entry hdir => ?_, fun y entry below => ?_⟩,
    fun y i => hsame _ (by simp)⟩
  · have hroot := hsame [] (by simp)
    rw [List.append_nil] at hroot
    rw [hroot]
    exact h.root
  · rcases hbelow [y] with heq | ⟨heq, hnew⟩
    · exact h.topic y content (heq.symm.trans hget)
    · obtain ⟨rfl⟩ := List.singleton_inj.1 heq
      exact ⟨Option.some_inj.1 (hget.symm.trans hnew), hx⟩
  · rw [DirTree.isDir, hsame _ (by simp)] at hdir
    obtain ⟨htopic, hentry⟩ := h.partition y entry hdir
    refine ⟨?_, hentry⟩
    rcases hbelow [y] with heq | ⟨-, hnew⟩
    · rw [DirTree.isDir, heq]
      exact htopic
    · rw [DirTree.isDir, hnew]
      rfl
  · rw [DirTree.isDir, hsame _ (by simp)]
    exact h.deep y entry below

/-- The directory of the offset manager leaves the topics alone. -/
theorem Cataloged.offsets {s : CatalogState} (h : Cataloged K dataDir s)
    (hdata : ∀ name ∈ dataDir, Normal name) :
    Cataloged K dataDir ⟨{ s.store with
      tree := (mkdirAll [] (dataDir ++ [Broker.offsetsName]) s.store.tree).2 }, s.catalog⟩ := by
  obtain ⟨hlaid, hcontents⟩ := h.laid.makes hdata (x := Broker.offsetsName) (by decide)
  refine ⟨hlaid, fun name topic hget => ?_, fun name hget => ?_⟩
  · obtain ⟨logs, hlogs, hkept⟩ := h.served name topic hget
    exact ⟨logs, hlogs, hkept.frame (hcontents name.toList)⟩
  · obtain ⟨hnone, k, hleft⟩ := h.rest name hget
    refine ⟨hnone, k, ?_⟩
    rwa [show contents (mkdirAll [] (dataDir ++ [Broker.offsetsName]) s.store.tree).2 dataDir
      name.toList = contents s.store.tree dataDir name.toList from funext (hcontents name.toList)]

end Offsets

/-! ## Events -/

section Events

variable {K : Crates} {config : BrokerConfig} {overflowChecks : Bool}

/-- The catalog after an event: what the topic manager has created and stored. -/
def storedBy (K : Crates) (config : BrokerConfig) (b : Broker) (c : Catalog) : BrokerEvent → Catalog
  | .request (.createTopic name partitions) io =>
    match (b.store.createTopic io.create config.dataDir name partitions).1 with
    | .ok _ => c.create name partitions
    | .error _ => c
  | .request (.produce topic partition messages) io =>
    match (b.store.append K io.append messages topic partition).1 with
    | .ok _ => c.append topic partition messages
    | .error _ => c
  | _ => c

/-- A broker and the catalog of what it has stored. -/
structure CatalogBroker where
  broker : Broker
  catalog : Catalog

/-- The broker is in step with its catalog. -/
def InStep (K : Crates) (config : BrokerConfig) (s : CatalogBroker) : Prop :=
  Cataloged K config.dataDir ⟨s.broker.store, s.catalog⟩

def catalogBrokerNext (K : Crates) (config : BrokerConfig) (overflowChecks : Bool) (s : CatalogBroker)
    (e : BrokerEvent) : Option CatalogBroker :=
  (brokerNext K config overflowChecks s.broker e).map fun b =>
    ⟨b, storedBy K config s.broker s.catalog e⟩

/-- The event leaves what lasts. -/
def EventLasts (K : Crates) (config : BrokerConfig) (s : CatalogBroker) (e : BrokerEvent)
    (_ : CatalogBroker) : Prop :=
  match e with
  | .request (.createTopic name partitions) io => ∀ h : partitions < 2 ^ 32,
      Lasting config.dataDir ⟨s.broker.store, Table.empty⟩ ⟨name, partitions, h, io.create⟩
        ⟨s.broker.store, Table.empty⟩
  | .request (.produce topic partition messages) io => ∀ found p,
      s.broker.store.find topic partition = .ok (found, p) →
        Written K io.append messages s.broker.store.tree p
  | _ => True

theorem createTopic_store (io : RequestIo) (name : String) (partitions : Nat) (b : Broker) :
    (b.createTopic config io name partitions).2.store =
      (b.store.createTopic io.create config.dataDir name partitions).2 := by
  unfold Broker.createTopic
  rcases b.store.createTopic io.create config.dataDir name partitions with ⟨_ | _, store⟩ <;> rfl

theorem produce_store (io : RequestIo) (topic : String) (partition : Nat) (messages : List Message)
    (b : Broker) :
    (b.produce K overflowChecks io topic partition messages).2.store =
      (b.store.append K io.append messages topic partition).2 := by
  unfold Broker.produce
  rcases b.store.append K io.append messages topic partition with ⟨(_ | _) | base, store⟩
  · rfl
  · rfl
  · simp only
    split <;> rfl

/-- A start on files that are in step with a catalog. -/
theorem Cataloged.starts {s : CatalogState} (h : Cataloged K config.dataDir s)
    (hdata : ∀ name ∈ config.dataDir, Normal name) {listing : Listing}
    (hlists : Lists s.store.tree listing) {now : Nat} {b : Broker}
    (hnew : Broker.new K config listing now s.store.tree = .ok b) :
    Cataloged K config.dataDir ⟨b.store, s.catalog⟩ := by
  obtain ⟨opened, hopen, hopened⟩ := h.reopens hlists
  obtain ⟨htree, -⟩ := served_iff hlists (isDir_iff.2 ⟨_, h.laid.root⟩) hopen
  unfold Broker.new at hnew
  rw [hopen] at hnew
  simp only at hnew
  split at hnew
  · cases hnew
  · rename_i loc tree hmade
    cases hnew
    have hoffsets := hopened.offsets hdata
    simp only [htree, hmade] at hoffsets
    exact hoffsets

/-- **Every event** keeps the broker in step with the catalog of what it has stored. -/
theorem InStep.next (hK : K.Lawful) (hdata : ∀ name ∈ config.dataDir, Normal name)
    {s s' : CatalogBroker} (h : InStep K config s) {e : BrokerEvent} (hlasts : EventLasts K config s e s')
    (hstep : catalogBrokerNext K config overflowChecks s e = some s') : InStep K config s' := by
  obtain ⟨b', hnext, rfl⟩ := Option.map_eq_some_iff.1 hstep
  cases e with
  | request request io =>
    obtain ⟨-, hsized, -, rfl, -⟩ := next_request hnext
    cases request with
    | createTopic name partitions =>
      simp only [InStep, Broker.processRequest, createTopic_store]
      exact h.create (hlasts hsized) rfl
    | produce topic partition messages =>
      simp only [InStep, Broker.processRequest, produce_store]
      exact (h.append hK hlasts rfl).1
    | _ => exact h
  | healthCheck io =>
    obtain ⟨-, -, c, -, rfl⟩ := next_healthCheck hnext
    exact h
  | pass now =>
    obtain ⟨-, rfl⟩ := next_pass hnext
    exact h
  | restart listing =>
    obtain ⟨hlists, hnew⟩ := next_restart hnext
    exact h.starts hdata hlists hnew

/-! ## Runs -/

/-- The response to `GetPartitions`. -/
def Catalog.partitions (topic : String) (c : Catalog) : Response :=
  match c.get topic with
  | some logs => .partitions topic logs.length
  | none => .partitionsError (GaffaError.topicNotFound topic).display

/-- The broker answers requests as the catalog does. -/
structure AnswersAs (K : Crates) (config : BrokerConfig) (overflowChecks : Bool) (s : CatalogBroker) :
    Prop where
  fetch : ∀ io topic partition offset maxMessages,
    (s.broker.processRequest K config overflowChecks io
      (.fetch topic partition offset maxMessages)).1 =
      respond (.fetchSuccess topic partition) .fetchError
        (s.catalog.fetch topic partition offset maxMessages)
  partitions : ∀ io topic,
    (s.broker.processRequest K config overflowChecks io (.getPartitions topic)).1 =
      some (s.catalog.partitions topic)

theorem InStep.answersAs {s : CatalogBroker} (h : InStep K config s) :
    AnswersAs K config overflowChecks s := by
  have hreflects := h.reflects
  refine ⟨fun io topic partition offset maxMessages => ?_, fun io topic => ?_⟩
  · have hfetch := hreflects.fetch topic partition offset maxMessages
    simp only [Broker.processRequest, Broker.fetch, hfetch]
  · have htopics := hreflects.topics topic
    simp only at htopics
    simp only [Broker.processRequest, getTopic, Catalog.partitions]
    cases hget : s.broker.store.topics.get topic with
    | none =>
      rw [hget, Option.map_none, eq_comm, Option.map_eq_none_iff] at htopics
      simp only [htopics]
    | some found =>
      rw [hget, Option.map_some, eq_comm, Option.map_eq_some_iff] at htopics
      obtain ⟨logs, hlogs, hlength⟩ := htopics
      simp only [hlogs, hlength]

/-- What a response reports is in the catalog from then on. -/
def Reported (K : Crates) (config : BrokerConfig) (overflowChecks : Bool) (s : CatalogBroker)
    (e : BrokerEvent) (s' : CatalogBroker) : Prop :=
  match e with
  | .request (.createTopic name partitions) io =>
    (s.broker.processRequest K config overflowChecks io (.createTopic name partitions)).1 =
        some (.createTopicSuccess name partitions) →
      s'.catalog = s.catalog.create name partitions
  | .request (.produce topic partition messages) io => ∀ base count,
    (s.broker.processRequest K config overflowChecks io (.produce topic partition messages)).1 =
        some (.produceSuccess topic partition base count) →
      s.catalog.nextOffset topic partition = .ok base ∧ count = messages.length ∧
        s'.catalog = s.catalog.append topic partition messages
  | _ => True

theorem createTopic_success {io : RequestIo} {name : String} {partitions : Nat} {b : Broker}
    (h : (b.createTopic config io name partitions).1 = some (.createTopicSuccess name partitions)) :
    ∃ u, (b.store.createTopic io.create config.dataDir name partitions).1 = .ok u := by
  unfold Broker.createTopic at h
  rcases heq : b.store.createTopic io.create config.dataDir name partitions with ⟨e | u, store⟩
  · rw [heq] at h
    cases h
  · exact ⟨u, rfl⟩

theorem produce_success {io : RequestIo} {topic : String} {partition base count : Nat}
    {messages : List Message} {b : Broker}
    (h : (b.produce K overflowChecks io topic partition messages).1 =
      some (.produceSuccess topic partition base count)) :
    (b.store.append K io.append messages topic partition).1 = .ok base ∧
      count = messages.length % 2 ^ 32 := by
  unfold Broker.produce at h
  rcases heq : b.store.append K io.append messages topic partition with ⟨(e | e) | n, store⟩
  · rw [heq] at h
    cases h
  · rw [heq] at h
    cases h
  · rw [heq] at h
    simp only at h
    split at h
    · cases h
    · simp only at h
      split at h
      · cases h
        exact ⟨rfl, rfl⟩
      · cases h

theorem InStep.reported (hK : K.Lawful) {s s' : CatalogBroker} (h : InStep K config s) {e : BrokerEvent}
    (hlasts : EventLasts K config s e s')
    (hstep : catalogBrokerNext K config overflowChecks s e = some s') :
    Reported K config overflowChecks s e s' := by
  obtain ⟨b', hnext, rfl⟩ := Option.map_eq_some_iff.1 hstep
  cases e with
  | request request io =>
    obtain ⟨hframed, -⟩ := next_request hnext
    cases request with
    | createTopic name partitions =>
      intro hresponse
      obtain ⟨u, hcreate⟩ := createTopic_success hresponse
      simp only [storedBy, hcreate]
    | produce topic partition messages =>
      intro base count hresponse
      obtain ⟨happend, hcount⟩ := produce_success hresponse
      have hlength : messages.length ≤ maxMessageSize := hframed.1
      unfold maxMessageSize at hlength
      refine ⟨(h.append hK hlasts rfl).2 base happend, ?_, ?_⟩
      · rw [hcount, Nat.mod_eq_of_lt (by omega)]
      · simp only [storedBy, happend]
    | _ => trivial
  | _ => trivial

end Events

/-! ## A run -/

section Run

variable {config : BrokerConfig}

/-- What lasts, as far as it can be evaluated. -/
def EventLastsPlainly (config : BrokerConfig) (s : CatalogBroker) (e : BrokerEvent) (_ : CatalogBroker) :
    Prop :=
  match e with
  | .request (.createTopic name partitions) io => ∀ h : partitions < 2 ^ 32,
      Lasting config.dataDir ⟨s.broker.store, Table.empty⟩ ⟨name, partitions, h, io.create⟩
        ⟨s.broker.store, Table.empty⟩
  | .request (.produce topic partition messages) io =>
      ∀ found ∈ (s.broker.store.find topic partition).toOption,
        WrittenPlainly io.append messages s.broker.store.tree found.2
  | _ => True

theorem EventLastsPlainly.lasts {s s' : CatalogBroker} {e : BrokerEvent}
    (h : EventLastsPlainly config s e s') : EventLasts plainCrates config s e s' := by
  cases e with
  | request request io =>
    cases request with
    | produce topic partition messages =>
      intro found p hfind
      exact (h (found, p) (by rw [hfind]; rfl)).written
    | _ => exact h
  | _ => trivial

instance decidableEventLastsPlainly (s : CatalogBroker) (e : BrokerEvent) (s' : CatalogBroker) :
    Decidable (EventLastsPlainly config s e s') :=
  match e with
  | .request (.createTopic _ partitions) _ => inferInstanceAs (Decidable (∀ _ : partitions < 2 ^ 32, _))
  | .request (.produce topic partition _) _ =>
    inferInstanceAs (Decidable (∀ _ ∈ (s.broker.store.find topic partition).toOption, _))
  | .request (.fetch ..) _ => isTrue trivial
  | .request (.getMetadata ..) _ => isTrue trivial
  | .request (.getPartitions ..) _ => isTrue trivial
  | .request .listTopics _ => isTrue trivial
  | .request (.joinGroup ..) _ => isTrue trivial
  | .request (.leaveGroup ..) _ => isTrue trivial
  | .request (.heartbeat ..) _ => isTrue trivial
  | .request (.commitOffset ..) _ => isTrue trivial
  | .request (.fetchOffset ..) _ => isTrue trivial
  | .request (.registerBroker ..) _ => isTrue trivial
  | .request .getClusterMetadata _ => isTrue trivial
  | .request (.replicationFetch ..) _ => isTrue trivial
  | .healthCheck _ => isTrue trivial
  | .pass _ => isTrue trivial
  | .restart _ => isTrue trivial

/-- A topic with messages, a topic that is not there, a restart and a message behind it. -/
def catalogEvents : List BrokerEvent :=
  [.request (.createTopic "a" 1) (.inOrder [1] [] [] fun _ => []),
    .request (.produce "a" 0 [⟨none, [1, 2], 0⟩, ⟨none, [3], 0⟩])
      (.inOrder [1] ["a"] [("a", 0)] fun _ => [1]),
    .request (.produce "b" 0 [⟨none, [9], 0⟩]) (.inOrder [1] ["a"] [("a", 0)] fun _ => [1]),
    .restart storedListing,
    .request (.produce "a" 0 [⟨none, [4], 0⟩]) (.inOrder [1] ["a"] [] fun _ => [])]

/-- A broker that starts on the empty data directory, and what it does at some events. -/
def catalogRun (events : List BrokerEvent) : Option (Broker × List (BrokerEvent × CatalogBroker)) :=
  match Broker.new plainCrates (localConfig 1 1) emptyListing 0 emptyDataDir with
  | .error _ => none
  | .ok b => (trace (catalogBrokerNext plainCrates (localConfig 1 1) true) ⟨b, Table.empty⟩ events).map
      fun tr => (b, tr)

theorem catalogRun_spec {events : List BrokerEvent} {b : Broker}
    {tr : List (BrokerEvent × CatalogBroker)} (h : catalogRun events = some (b, tr)) :
    Broker.new plainCrates (localConfig 1 1) emptyListing 0 emptyDataDir = .ok b ∧
      trace (catalogBrokerNext plainCrates (localConfig 1 1) true) ⟨b, Table.empty⟩ events = some tr := by
  unfold catalogRun at h
  split at h
  · cases h
  · rename_i b' hnew
    obtain ⟨tr', htr, heq⟩ := Option.map_eq_some_iff.1 h
    cases heq
    exact ⟨hnew, htr⟩

end Run

end Gaffa
