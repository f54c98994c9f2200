import Gaffa.Storage.Fidelity
import Gaffa.Storage.FailedAppend
import Gaffa.Storage.Survival

/-!
# The topic manager as a catalog of logs

`storage/src/topic.rs` down to the files: creations that succeed or fail, appends and restarts, in any
order.  A `Catalog` says what a topic manager is for; the manager answers as the catalog of what it has
acknowledged does, and so does every manager that is opened on its files.

* `KeptAt`: the partition and its files hold exactly these messages; `KeptAt.append`, `KeptAt.reopen`.
* `KeptAt.append_done`: what the file system takes is acknowledged, if there is room.
* `Cataloged.next`: every call keeps the manager and its files in step with the catalog.
* `manager_keeps_catalog`: over runs whose creations last and whose appends are written properly.
-/

set_option autoImplicit false

namespace Gaffa

open ByteString FileSystem DirTree Transition TopicStore

variable {K : Crates} {dataDir : Location} {t t' : Tree} {name : String} {id : Nat}

/-! ## Catalogs -/

/-- The messages in each partition of each topic. -/
abbrev Catalog := Table String (List (List Message))

namespace Catalog

/-- The messages in a partition. -/
def find (name : String) (id : Nat) (c : Catalog) : Except GaffaError (List Message) :=
  match c.get name with
  | none => .error (.topicNotFound name)
  | some logs =>
    match logs[id]? with
    | none => .error (.partitionNotFound name id)
    | some log => .ok log

/-- The messages from an offset on, as records. -/
def fetch (name : String) (id offset maxMessages : Nat) (c : Catalog) : Except Fault (List Record) :=
  match c.find name id with
  | .error e => .error (.error e)
  | .ok log => .ok (((referenceFrom name id 0 log).drop offset).take maxMessages)

/-- How many messages there are. -/
def nextOffset (name : String) (id : Nat) (c : Catalog) : Except GaffaError Nat :=
  match c.find name id with
  | .error e => .error e
  | .ok log => .ok log.length

/-- A topic without messages. -/
def create (name : String) (partitions : Nat) (c : Catalog) : Catalog :=
  c.insert name (List.replicate partitions [])

/-- Messages behind the others of a partition. -/
def append (name : String) (id : Nat) (messages : List Message) (c : Catalog) : Catalog :=
  match c.get name with
  | none => c
  | some logs => c.insert name (logs.modify id (· ++ messages))

theorem find_ok_iff {c : Catalog} {log : List Message} :
    c.find name id = .ok log ↔ ∃ logs, c.get name = some logs ∧ logs[id]? = some log := by
  unfold find
  cases c.get name with
  | none => exact ⟨fun h => (nomatch h), fun ⟨_, h, _⟩ => (nomatch h)⟩
  | some logs =>
    simp only [Option.some.injEq, exists_eq_left']
    cases logs[id]? with
    | none => exact ⟨fun h => (nomatch h), fun h => (nomatch h)⟩
    | some log' => rw [Except.ok.injEq, Option.some_inj]

end Catalog

/-! ## Appends that the file system takes -/

section Taken

open LogSegment

variable {config : SegmentConfig}

theorem updateIndex_done (config : SegmentConfig) (st : AppendState) :
    ∃ st', updateIndex config .done st = (.ok (), st') ∧ st'.nextOffset = st.nextOffset ∧
      st'.currentPosition = st.currentPosition ∧ st'.recordsSinceIndex ≤ config.indexInterval := by
  unfold updateIndex
  by_cases hdue : st.recordsSinceIndex ≥ config.indexInterval
  · rw [if_pos hdue]
    exact ⟨_, rfl, rfl, rfl, Nat.zero_le _⟩
  · rw [if_neg hdue]
    exact ⟨_, rfl, rfl, rfl, Nat.le_of_not_ge hdue⟩

/-- The code of a message that fits, uncompressed. -/
theorem encode_fits {m : Message} (hcompression : config.compression = .none) (hfit : Fits K .none m)
    (n : Nat) :
    ∃ bs, (recordOf config n m).encode K = .ok bs ∧ bs.length < 2 ^ 33 := by
  have hbody := hfit.2 m.value rfl
  rw [recordOf_eq, hcompression]
  refine ⟨_, rfl, ?_⟩
  simp only [List.length_append, length_toBe, DiskRecord.length_dataToChecksum]
  simp only [DiskRecord.bodySize] at hbody ⊢
  omega

theorem appendRecord_done {m : Message} (st : AppendState) (hcompression : config.compression = .none)
    (hinterval : config.indexInterval + 1 < 2 ^ 32) (hfit : Fits K .none m)
    (hnext : st.nextOffset + 1 < 2 ^ 64) (hposition : st.currentPosition + 2 ^ 33 < 2 ^ 64) :
    ∃ st', appendRecord K config ⟨none, .done⟩ m st = (.ok (), st') ∧
      st'.nextOffset = st.nextOffset + 1 ∧ st'.currentPosition ≤ st.currentPosition + 2 ^ 33 := by
  obtain ⟨bs, henc, hlength⟩ := encode_fits hcompression hfit st.nextOffset
  obtain ⟨st₁, hix, hnext₁, hposition₁, hsince⟩ :=
    updateIndex_done config { st with log := st.log ++ bs }
  simp only at hnext₁ hposition₁
  unfold appendRecord
  rw [henc]
  simp only [hix, advance]
  rw [checkedAdd_of_lt (by omega), hnext₁, checkedAdd_of_lt hnext, checkedAdd_of_lt (by omega)]
  exact ⟨_, rfl, rfl, by simp only [hposition₁]; omega⟩

/-- By induction on the messages: there is room for those that are left. -/
theorem appendLoop_done (hcompression : config.compression = .none)
    (hinterval : config.indexInterval + 1 < 2 ^ 32) :
    ∀ {messages : List Message} (st : AppendState), (∀ m ∈ messages, Fits K .none m) →
      st.nextOffset + messages.length < 2 ^ 64 →
      st.currentPosition + messages.length * 2 ^ 33 < 2 ^ 64 →
      ∃ st', appendLoop K config (fun _ => ⟨none, .done⟩) messages st = (.ok (), st')
  | [], st, _, _, _ => ⟨st, rfl⟩
  | m :: ms, st, hfit, hnext, hposition => by
    obtain ⟨hm, hms⟩ := List.forall_mem_cons.1 hfit
    rw [List.length_cons] at hnext hposition
    obtain ⟨st', hrecord, hnext', hposition'⟩ :=
      appendRecord_done st hcompression hinterval hm (by omega) (by omega)
    rw [appendLoop, hrecord]
    exact appendLoop_done hcompression hinterval st' hms (by omega) (by omega)

/-- A batch that fits behind `n` messages. -/
structure Room (K : Crates) (n : Nat) (messages : List Message) : Prop where
  ne_nil : messages ≠ []
  fits : ∀ m ∈ messages, Fits K .none m
  length : messages.length < 2 ^ 30
  offsets : n + messages.length < 2 ^ 64

theorem segmentAppend_done {s : LogSegment} {messages : List Message} (d : Dir)
    (hconfig : s.config = SegmentConfig.default) (hroom : Room K s.nextOffset messages)
    (hsize : s.size < 2 ^ 30) :
    (LogSegment.append K .done messages d s).1 = .ok s.nextOffset := by
  have hlength := hroom.length
  have hcompression : s.config.compression = .none := by rw [hconfig]; rfl
  have hinterval : s.config.indexInterval + 1 < 2 ^ 32 := by rw [hconfig]; decide
  obtain ⟨st, hloop⟩ := appendLoop_done hcompression hinterval (appendStart d s) hroom.fits
    hroom.offsets (by simp only [appendStart]; omega)
  unfold LogSegment.append
  rw [if_neg hroom.ne_nil]
  simp only [AppendIo.done, hloop]

end Taken

/-! ## One partition -/

/-- The partition and the files of its directory hold exactly these messages. -/
structure KeptAt (K : Crates) (dataDir : Location) (t : Tree) (name : String) (id : Nat)
    (p : StoredPartition) (log : List Message) : Prop where
  dir : p.dir = dataDir ++ [name.toList, partitionName id]
  isDir : isDir t p.dir = true
  config : p.partition.config = SegmentConfig.default
  kept : ∃ hs, Kept K name id ⟨files t p.dir, some p.partition, [(0, log)]⟩ p.partition hs

/-- What is kept says nothing about how it was appended. -/
theorem Kept.congr {topicName : String} {partitionId : Nat} {s s' : LogState} {p : Partition}
    {hs : List (Held K)} (h : Kept K topicName partitionId s p hs) (hdir : s'.dir = s.dir)
    (hpartition : s'.partition = s.partition) (hmessages : s'.messages = s.messages) :
    Kept K topicName partitionId s' p hs :=
  ⟨hpartition.trans h.partition, h.topicName, h.partitionId, hdir ▸ h.agrees, hdir ▸ h.pristine,
    h.filled, h.messages.trans hmessages.symm⟩

section Partition

variable {p : StoredPartition} {log : List Message}

theorem messages_singleton (d : Dir) (p : Option Partition) (n : Nat) (log : List Message) :
    (⟨d, p, [(n, log)]⟩ : LogState).messages = log := List.flatMap_singleton ..

theorem KeptAt.fetch (h : KeptAt K dataDir t name id p log) (offset maxMessages : Nat) :
    p.partition.fetch K (files t p.dir) offset maxMessages =
      .ok (((referenceFrom name id 0 log).drop offset).take maxMessages) := by
  obtain ⟨hs, hkept⟩ := h.kept
  have hfetch := hkept.fetch offset maxMessages
  rwa [messages_singleton] at hfetch

theorem KeptAt.nextOffset (h : KeptAt K dataDir t name id p log) :
    p.partition.nextOffset = log.length := by
  obtain ⟨hs, hkept⟩ := h.kept
  rw [hkept.nextOffset, messages_singleton]

/-- Only the partition's own directory matters. -/
theorem KeptAt.frame (h : KeptAt K dataDir t name id p log)
    (hget : t'.get (dataDir ++ [name.toList, partitionName id]) =
      t.get (dataDir ++ [name.toList, partitionName id])) :
    KeptAt K dataDir t' name id p log := by
  have hdir := h.isDir
  have hkept := h.kept
  have hfiles : files t' p.dir = files t p.dir := by
    rw [h.dir, files, files, hget]
  refine ⟨h.dir, ?_, h.config, ?_⟩
  · rw [DirTree.isDir, h.dir, hget, ← h.dir]
    exact hdir
  · rw [hfiles]
    exact hkept

/-- **A new partition** holds nothing. -/
theorem keptAt_fresh (hname : Plain name) (hmade : contents t dataDir name.toList id = some made) :
    KeptAt K dataDir t name id (freshPartition dataDir name id) [] := by
  have hdir : (freshPartition dataDir name id).dir = dataDir ++ [name.toList, partitionName id] := by
    rw [freshPartition, hname.topicDir, List.append_assoc]
    rfl
  have hget : t.get (freshPartition dataDir name id).dir = some made := by
    rw [hdir]
    exact hmade
  have hinit : Kept K name id (LogState.init name id SegmentConfig.default) _ _ := kept_init _
  refine ⟨hdir, isDir_iff.2 ⟨made, hget⟩, rfl, _, hinit.congr ?_ ?_ ?_⟩
  · rw [files_of_get hget]
    rfl
  · rw [init_eq]
    rfl
  · rfl

/-- **An append** that is written properly. -/
theorem KeptAt.append (hK : K.Lawful) (h : KeptAt K dataDir t name id p log) {io : PartitionIo}
    {messages : List Message} (hfit : ∀ m ∈ messages, Fits K .none m)
    (hsafe : CursorSafe ⟨files t p.dir, some p.partition, [(0, log)]⟩ (.append io messages)
      ⟨files t p.dir, some p.partition, [(0, log)]⟩)
    {n : Nat} {d : Dir} {partition : Partition}
    (happ : Partition.append K io messages (files t p.dir) p.partition = (.ok n, d, partition)) :
    n = log.length ∧ KeptAt K dataDir (t.insert p.dir d) name id ⟨p.dir, partition⟩ (log ++ messages) := by
  obtain ⟨hs, hkept⟩ := h.kept
  obtain ⟨hn, -, -, -, -, hconfig⟩ := append_nextOffset happ
  have hget : (t.insert p.dir d).get p.dir = some d := Table.get_insert_self ..
  refine ⟨hn.trans h.nextOffset, h.dir, isDir_iff.2 ⟨d, hget⟩, hconfig.trans h.config, ?_⟩
  have hfit' : ∀ m ∈ messages, Fits K p.partition.config.compression m := by
    rw [h.config]
    exact hfit
  obtain ⟨hs', hkept', -⟩ := hkept.append hK hfit' happ hsafe
  refine ⟨hs', hkept'.congr ?_ rfl ?_⟩
  · exact files_of_get hget
  · simp [LogState.messages]

/-- **An append that the file system takes** is acknowledged, if there is room. -/
theorem KeptAt.append_done (h : KeptAt K dataDir t name id p log) {messages : List Message}
    (hroom : Room K log.length messages) :
    (Partition.append K .done messages (files t p.dir) p.partition).1 = .ok log.length := by
  obtain ⟨hs, hkept⟩ := h.kept
  obtain ⟨init, g, rfl⟩ := (List.eq_nil_or_concat' hs).resolve_left hkept.agrees.ne_nil
  have hlast := hkept.agrees.getLast?
  have hconfig := (hkept.agrees.held g (by simp)).config.trans h.config
  have hnext : g.segment.nextOffset = log.length := by
    rw [← h.nextOffset, Partition.nextOffset, hlast]
  rw [← hnext] at hroom ⊢
  unfold Partition.append Partition.rotate
  rw [if_neg hroom.ne_nil, hlast]
  cases hfull : g.segment.shouldRotate with
  | false =>
    have hsize : g.segment.size < 2 ^ 30 := by
      simpa [LogSegment.shouldRotate, hconfig, SegmentConfig.default] using hfull
    simp only [hfull, Bool.false_eq_true, if_false]
    exact segmentAppend_done _ hconfig hroom hsize
  | true =>
    simp only [hfull, if_true]
    exact segmentAppend_done (s := createdSegment p.partition.config g.segment.nextOffset) _ h.config
      hroom (show 0 < 2 ^ 30 by decide)

end Partition

/-! ## Reopening -/

section Reopen

variable {listing : Listing} {log : List Message} {logs : List (List Message)} {topic : StoredTopic}

/-- A partition's directory is listed without anything but its files. -/
theorem Laid.order (h : Laid dataDir t) (hlists : Lists t listing) {x entry : Name}
    (hdir : isDir t (dataDir ++ [x, entry]) = true) :
    (files t (dataDir ++ [x, entry])).Order (listing (dataDir ++ [x, entry])) := by
  have hkey := (t.mem_keys _).2 hdir
  refine ⟨hlists.nodup _ hkey, fun file => (hlists.mem _ hkey file).trans (or_iff_left ?_)⟩
  rw [mem_subdirectories, List.append_assoc]
  exact Bool.eq_false_iff.1 (h.deep x entry file)

theorem openWithConfig_config {topicName : String} {partitionId : Nat} {config : SegmentConfig}
    {names : List FileName} {d : Dir} {p : Partition}
    (h : Partition.openWithConfig K topicName partitionId config names d = .ok p) :
    p.config = config := by
  unfold Partition.openWithConfig at h
  split at h
  · cases h
  · split at h
    · cases h
    · cases h
      rfl

/-- **A reopened partition** holds what it held. -/
theorem KeptAt.reopen {p : StoredPartition} (h : KeptAt K dataDir t name id p log)
    (hlaid : Laid dataDir t) (hlists : Lists t listing) (hname : Plain name) :
    ∃ p', openPartition K listing t dataDir name id = .ok p' ∧ KeptAt K dataDir t name id p' log := by
  obtain ⟨hs, hkept⟩ := h.kept
  have hdir := h.isDir
  rw [h.dir] at hdir hkept
  obtain ⟨partition, hopen, hkept'⟩ := hkept.reopen SegmentConfig.default (hlaid.order hlists hdir)
  refine ⟨⟨dataDir ++ [name.toList, partitionName id], partition⟩, ?_, rfl, hdir,
    openWithConfig_config hopen, _, hkept'⟩
  unfold openPartition
  rw [hname.topicDir, List.append_assoc]
  simp only [List.cons_append, List.nil_append]
  rw [if_pos hdir]
  simp only at hopen
  rw [hopen]

theorem openPartitions_total : ∀ {ids : List Nat},
    (∀ i ∈ ids, ∃ p, openPartition K listing t dataDir name i = .ok p) →
      ∃ ps, openPartitions K listing t dataDir name ids = .ok ps
  | [], _ => ⟨[], rfl⟩
  | i :: ids, h => by
    obtain ⟨⟨p, hp⟩, hids⟩ := List.forall_mem_cons.1 h
    obtain ⟨ps, hps⟩ := openPartitions_total hids
    refine ⟨p :: ps, ?_⟩
    unfold openPartitions
    rw [hp]
    simp only [hps]

/-- The topic's partitions hold the logs, one each, and there are no other ones. -/
structure TopicKept (K : Crates) (dataDir : Location) (t : Tree) (name : String) (topic : StoredTopic)
    (logs : List (List Message)) : Prop where
  plain : Plain name
  topicName : topic.name = name
  length : topic.partitions.length = logs.length
  pos : 0 < logs.length
  lt : logs.length < 2 ^ 32
  kept : ∀ i p log, topic.partitions[i]? = some p → logs[i]? = some log →
    KeptAt K dataDir t name i p log
  absent : ∀ i, logs.length ≤ i → contents t dataDir name.toList i = none

theorem TopicKept.keptAt (h : TopicKept K dataDir t name topic logs) {i : Nat}
    (hi : logs[i]? = some log) : ∃ p, topic.partitions[i]? = some p ∧ KeptAt K dataDir t name i p log := by
  obtain ⟨hlt, -⟩ := List.getElem?_eq_some_iff.1 hi
  obtain ⟨p, hp⟩ : ∃ p, topic.partitions[i]? = some p :=
    ⟨_, List.getElem?_eq_getElem (h.length.symm ▸ hlt)⟩
  exact ⟨p, hp, h.kept i p log hp hi⟩

theorem TopicKept.isSome_iff (h : TopicKept K dataDir t name topic logs) (i : Nat) :
    (contents t dataDir name.toList i).isSome = true ↔ i < logs.length := by
  by_cases hlt : i < logs.length
  · refine iff_of_true ?_ hlt
    obtain ⟨p, -, hkept⟩ := h.keptAt (List.getElem?_eq_getElem hlt)
    have hdir := hkept.isDir
    rwa [hkept.dir] at hdir
  · rw [h.absent i (Nat.le_of_not_lt hlt)]
    exact iff_of_false (by simp) hlt

/-- **A reopened topic** holds what it held. -/
theorem TopicKept.reopen (h : TopicKept K dataDir t name topic logs) (hlaid : Laid dataDir t)
    (hlists : Lists t listing) :
    isDir t (dataDir ++ [name.toList]) = true ∧ ∃ topic',
      openTopic K listing t dataDir name = .ok topic' ∧ TopicKept K dataDir t name topic' logs := by
  have hdir := (hlaid.partition _ _ ((h.isSome_iff 0).2 h.pos)).1
  have hids := partitionIds_laid hlaid hlists hdir h.isSome_iff
  have hreopen : ∀ i log, logs[i]? = some log → ∃ p,
      openPartition K listing t dataDir name i = .ok p ∧ KeptAt K dataDir t name i p log := by
    intro i log hi
    obtain ⟨p, -, hkept⟩ := h.keptAt hi
    exact hkept.reopen hlaid hlists h.plain
  obtain ⟨ps, hps⟩ : ∃ ps,
      openPartitions K listing t dataDir name (List.range logs.length) = .ok ps := by
    refine openPartitions_total fun i hi => ?_
    obtain ⟨p, hp, -⟩ := hreopen i _ (List.getElem?_eq_getElem (List.mem_range.1 hi))
    exact ⟨p, hp⟩
  have hopen : openTopic K listing t dataDir name = .ok ⟨name, ps⟩ := by
    unfold openTopic
    rw [h.plain.topicDir, hids]
    cases hrange : List.range logs.length with
    | nil => exact absurd (List.range_eq_nil.1 hrange) (Nat.ne_of_gt h.pos)
    | cons i ids =>
      rw [hrange] at hps
      simp only [hps]
  obtain ⟨-, -, hforall⟩ := openTopic_ok hopen
  rw [h.plain.topicDir, hids] at hforall
  refine ⟨hdir, _, hopen, h.plain, rfl, ?_, h.pos, h.lt, fun i p log hp hlog => ?_, h.absent⟩
  · rw [← hforall.length_eq, List.length_range]
  · obtain ⟨p', hp', hkept⟩ := hreopen i log hlog
    obtain ⟨hlt, hget⟩ := List.getElem?_eq_some_iff.1 hp
    have hopened := (List.forall₂_iff_get.1 hforall).2 i (by rw [hforall.length_eq]; exact hlt) hlt
    simp only [List.get_eq_getElem, List.getElem_range] at hopened
    rw [hget, hp'] at hopened
    cases hopened
    exact hkept

end Reopen

/-! ## The manager and its catalog -/

/-- A call of the topic manager, or a restart of the broker. -/
inductive StoreCall where
  | create (call : Creation)
  | append (name : String) (id : Nat) (io : PartitionIo) (messages : List Message)
  | restart (listing : Listing)

/-- A topic manager with its files, and the catalog of what it has acknowledged. -/
structure CatalogState where
  store : TopicStore
  catalog : Catalog

/-- A topic manager on a data directory. -/
def CatalogState.new (t : Tree) : CatalogState := ⟨⟨Table.empty, t⟩, Table.empty⟩

/-- One call. -/
def catalogNext (K : Crates) (dataDir : Location) (s : CatalogState) :
    StoreCall → Option CatalogState
  | .create call =>
    let r := s.store.createTopic call.io dataDir call.name call.partitions
    some ⟨r.2, match r.1 with
      | .ok _ => s.catalog.create call.name call.partitions
      | .error _ => s.catalog⟩
  | .append name id io messages =>
    let r := s.store.append K io messages name id
    some ⟨r.2, match r.1 with
      | .ok _ => s.catalog.append name id messages
      | .error _ => s.catalog⟩
  | .restart listing =>
    if Lists s.store.tree listing then
      match open_ K listing dataDir s.store.tree with
      | .ok opened => some ⟨opened, s.catalog⟩
      | .error _ => none
    else none

/-- An append fails and changes nothing; or its messages fit the format, and it writes index entries only
behind those that its handle counts. -/
def Written (K : Crates) (io : PartitionIo) (messages : List Message) (t : Tree) (p : StoredPartition) :
    Prop :=
  match appendTo K io messages t p with
  | (.error _, t', p') => files t' p.dir = files t p.dir ∧ p' = p
  | (.ok _, _, _) => (∀ m ∈ messages, Fits K .none m) ∧
      CursorSafe ⟨files t p.dir, some p.partition, []⟩ (.append io messages)
        ⟨files t p.dir, some p.partition, []⟩

/-- The call leaves what lasts. -/
def Lasts (K : Crates) (dataDir : Location) (s : CatalogState) (call : StoreCall) (_ : CatalogState) :
    Prop :=
  match call with
  | .create call => Lasting dataDir ⟨s.store, Table.empty⟩ call ⟨s.store, Table.empty⟩
  | .append name id io messages => ∀ topic p, s.store.find name id = .ok (topic, p) →
      Written K io messages s.store.tree p
  | .restart _ => True

/-- The manager answers as the catalog does. -/
structure Reflects (K : Crates) (s : TopicStore) (c : Catalog) : Prop where
  topics : ∀ name, (s.topics.get name).map StoredTopic.numPartitions = (c.get name).map List.length
  fetch : ∀ name id offset maxMessages,
    s.fetch K name id offset maxMessages = c.fetch name id offset maxMessages
  nextOffset : ∀ name id, s.nextOffset name id = c.nextOffset name id

/-- The manager and its files are in step with the catalog. -/
structure Cataloged (K : Crates) (dataDir : Location) (s : CatalogState) : Prop where
  laid : Laid dataDir s.store.tree
  served : ∀ name topic, s.store.topics.get name = some topic →
    ∃ logs, s.catalog.get name = some logs ∧ TopicKept K dataDir s.store.tree name topic logs
  rest : ∀ name, s.store.topics.get name = none → s.catalog.get name = none ∧
    ∃ k, Leftover (contents s.store.tree dataDir name.toList) k

section Catalog

variable {s : CatalogState}

/-- The manager and the catalog find the same partitions. -/
theorem Cataloged.find (h : Cataloged K dataDir s) (name : String) (id : Nat) :
    (∃ e, s.store.find name id = .error e ∧ s.catalog.find name id = .error e) ∨
      ∃ topic p log, s.store.find name id = .ok (topic, p) ∧ s.catalog.find name id = .ok log ∧
        KeptAt K dataDir s.store.tree name id p log := by
  unfold TopicStore.find getTopic Catalog.find
  cases hget : s.store.topics.get name with
  | none =>
    rw [(h.rest name hget).1]
    exact .inl ⟨_, rfl, rfl⟩
  | some topic =>
    obtain ⟨logs, hlogs, hkept⟩ := h.served name topic hget
    rw [hlogs]
    unfold StoredTopic.getPartition
    cases hlog : logs[id]? with
    | none =>
      have hnone : topic.partitions[id]? = none := by
        rw [List.getElem?_eq_none_iff, hkept.length]
        exact List.getElem?_eq_none_iff.1 hlog
      refine .inl ⟨.partitionNotFound name id, ?_, by simp only [hlog]⟩
      simp only [hnone, hkept.topicName]
    | some log =>
      obtain ⟨p, hp, hat⟩ := hkept.keptAt hlog
      refine .inr ⟨topic, p, log, ?_, by simp only [hlog], hat⟩
      simp only [hp]

/-- **The manager answers as the catalog does.** -/
theorem Cataloged.reflects (h : Cataloged K dataDir s) : Reflects K s.store s.catalog := by
  constructor
  · intro name
    cases hget : s.store.topics.get name with
    | none => rw [(h.rest name hget).1, Option.map_none, Option.map_none]
    | some topic =>
      obtain ⟨logs, hlogs, hkept⟩ := h.served name topic hget
      rw [hlogs, Option.map_some, Option.map_some, StoredTopic.numPartitions, hkept.length,
        Nat.mod_eq_of_lt hkept.lt]
  · intro name id offset maxMessages
    unfold TopicStore.fetch Catalog.fetch
    rcases h.find name id with ⟨e, hfind, hlog⟩ | ⟨topic, p, log, hfind, hlog, hat⟩
    · rw [hfind, hlog]
    · rw [hfind, hlog]
      exact hat.fetch offset maxMessages
  · intro name id
    unfold TopicStore.nextOffset Catalog.nextOffset
    rcases h.find name id with ⟨e, hfind, hlog⟩ | ⟨topic, p, log, hfind, hlog, hat⟩
    · rw [hfind, hlog]
    · rw [hfind, hlog]
      exact congrArg Except.ok hat.nextOffset

theorem TopicKept.frame {topic : StoredTopic} {logs : List (List Message)}
    (h : TopicKept K dataDir t name topic logs)
    (hcontents : ∀ id, contents t' dataDir name.toList id = contents t dataDir name.toList id) :
    TopicKept K dataDir t' name topic logs :=
  ⟨h.plain, h.topicName, h.length, h.pos, h.lt,
    fun i p log hp hlog => (h.kept i p log hp hlog).frame (hcontents i),
    fun i hi => (hcontents i).trans (h.absent i hi)⟩

/-- A call changes one topic. -/
theorem Cataloged.change (h : Cataloged K dataDir s) {topics : Table String StoredTopic}
    {catalog : Catalog} (name : String) (hlaid : Laid dataDir t)
    (htopics : ∀ other, other ≠ name → topics.get other = s.store.topics.get other)
    (hcatalog : ∀ other, other ≠ name → catalog.get other = s.catalog.get other)
    (hcontents : ∀ other, other ≠ name → ∀ id,
      contents t dataDir other.toList id = contents s.store.tree dataDir other.toList id)
    (hthis : (∃ topic logs, topics.get name = some topic ∧ catalog.get name = some logs ∧
        TopicKept K dataDir t name topic logs) ∨
      (topics.get name = none ∧ catalog.get name = none ∧
        ∃ k, Leftover (contents t dataDir name.toList) k)) :
    Cataloged K dataDir ⟨⟨topics, t⟩, catalog⟩ := by
  refine ⟨hlaid, fun other topic hget => ?_, fun other hget => ?_⟩
  · by_cases hother : other = name
    · subst hother
      rcases hthis with ⟨topic', logs, htopic, hlogs, hkept⟩ | ⟨hnone, -⟩
      · obtain rfl := Option.some_inj.1 (htopic.symm.trans hget)
        exact ⟨logs, hlogs, hkept⟩
      · cases hnone.symm.trans hget
    · obtain ⟨logs, hlogs, hkept⟩ := h.served other topic ((htopics other hother).symm.trans hget)
      exact ⟨logs, (hcatalog other hother).trans hlogs, hkept.frame (hcontents other hother)⟩
  · by_cases hother : other = name
    · subst hother
      rcases hthis with ⟨topic', logs, htopic, -⟩ | ⟨-, hnone, hleft⟩
      · cases htopic.symm.trans hget
      · exact ⟨hnone, hleft⟩
    · obtain ⟨hnone, k, hleft⟩ := h.rest other ((htopics other hother).symm.trans hget)
      refine ⟨(hcatalog other hother).trans hnone, k, ?_⟩
      rwa [show contents t dataDir other.toList = contents s.store.tree dataDir other.toList from
        funext (hcontents other hother)]

/-- A new topic holds nothing. -/
theorem topicKept_fresh (hname : Plain name) {n : Nat} (hpos : 0 < n) (hlt : n < 2 ^ 32)
    (hmade : AllMade (contents t dataDir name.toList) n) :
    TopicKept K dataDir t name (freshTopic dataDir name n) (List.replicate n []) := by
  refine ⟨hname, rfl, ?_, ?_, ?_, fun i p log hp hlog => ?_, fun i hi => ?_⟩
  · rw [freshTopic, List.length_map, List.length_range, List.length_replicate]
  · rwa [List.length_replicate]
  · rwa [List.length_replicate]
  · obtain ⟨hi, hnil⟩ := List.getElem?_eq_some_iff.1 hlog
    rw [List.length_replicate] at hi
    rw [List.getElem_replicate] at hnil
    rw [freshTopic, List.getElem?_map, List.getElem?_range hi, Option.map_some, Option.some_inj] at hp
    subst hnil hp
    exact keptAt_fresh hname ((hmade i).trans (if_pos hi))
  · rw [hmade i, if_neg (by rw [List.length_replicate] at hi; omega)]

/-- A creation that is refused leaves the manager and the file system as they are. -/
theorem createTopic_refused {io : Nat → SetupIo} {partitions : Nat} {store : TopicStore}
    (h : (store.topics.get name).isSome = true ∨ (0 < partitions ∧ (io 0).mkdir.refuses = true)) :
    ∃ e, store.createTopic io dataDir name partitions = (.error e, store) := by
  rcases createTopic_cases io dataDir name partitions store with
    ⟨-, e, heq⟩ | ⟨hnone, e, t, hnew, heq⟩ | ⟨hnone, ps, t, hnew, -⟩
  · exact ⟨e, heq⟩
  · rcases h with hsome | ⟨hpos, hio⟩
    · rw [hnone] at hsome
      cases hsome
    · obtain ⟨e', hrefused⟩ := newTopic_refused dataDir name store.tree hpos hio
      cases hrefused.symm.trans hnew
      exact ⟨_, heq⟩
  · rcases h with hsome | ⟨hpos, hio⟩
    · rw [hnone] at hsome
      cases hsome
    · obtain ⟨e', hrefused⟩ := newTopic_refused dataDir name store.tree hpos hio
      cases hrefused.symm.trans hnew

/-- No more partitions are left over than the entries of the directory say. -/
theorem Leftover.le {x : Name} {k n : Nat} (h : Leftover (contents t dataDir x) k)
    (hentries : ∀ entry ∈ subdirectories t (dataDir ++ [x]), ∃ i < n, entry = partitionName i) :
    k ≤ n := by
  by_contra hlt
  have hdir := (h.isSome_iff n).2 (by omega)
  obtain ⟨i, hi, heq⟩ := hentries (partitionName n) (by
    rw [mem_subdirectories, List.append_assoc]
    exact hdir)
  rw [partitionName_inj] at heq
  omega

/-- **A creation** that lasts. -/
theorem Cataloged.create (h : Cataloged K dataDir s) {call : Creation}
    (hlasting : Lasting dataDir ⟨s.store, Table.empty⟩ call ⟨s.store, Table.empty⟩) {s' : CatalogState}
    (hstep : catalogNext K dataDir s (.create call) = some s') : Cataloged K dataDir s' := by
  cases hstep
  rw [Lasting, ← or_assoc] at hlasting
  rcases hlasting with hrefuses | ⟨hname, hfits, hmkdir⟩
  · obtain ⟨e, hrefused⟩ := createTopic_refused hrefuses
    rw [hrefused]
    exact h
  rcases createTopic_cases call.io dataDir call.name call.partitions s.store with
    ⟨-, e, hrefused⟩ | ⟨hnone, e, t, hnew, hfailed⟩ | ⟨hnone, ps, t, hnew, hdone⟩
  · rw [hrefused]
    exact h
  · rw [hfailed]
    obtain ⟨hcatalog, k, hleft⟩ := h.rest _ hnone
    obtain ⟨hlaid, hothers, ⟨ps, hps, -⟩ | ⟨e', stop, -, hlt, hne, hdones, hcontents⟩⟩ :=
      newTopic_range hname call.bound h.laid hnew
    · cases hps
    · refine h.change call.name hlaid (fun _ _ => rfl) (fun _ _ => rfl) hothers
        (.inr ⟨hnone, hcatalog, hleft.fails hdones hne (fun hmk => ?_) hcontents⟩)
      exact (hmkdir stop hlt hdones hmk).imp_right (hleft.isSome_iff stop).1
  · rw [hdone]
    obtain ⟨-, k, hleft⟩ := h.rest _ hnone
    obtain ⟨hlaid, hothers, ⟨ps', -, hdones, hcontents⟩ | ⟨e', stop, he, -⟩⟩ :=
      newTopic_range hname call.bound h.laid hnew
    · obtain ⟨hpos, hentries⟩ := hfits hdones
      have hmade := hleft.succeeds (hleft.le hentries) hdones hcontents
      exact h.change call.name hlaid (fun _ hne => Table.get_insert_ne _ hne)
        (fun _ hne => Table.get_insert_ne _ hne) hothers
        (.inl ⟨_, _, Table.get_insert_self .., Table.get_insert_self ..,
          topicKept_fresh hname hpos call.bound hmade⟩)
    · cases he

/-- An append to a partition: the files of its directory, which has no subdirectory. -/
theorem KeptAt.appendTo_eq {p : StoredPartition} {log : List Message}
    (h : KeptAt K dataDir t name id p log) (hlaid : Laid dataDir t) (io : PartitionIo)
    (messages : List Message) :
    appendTo K io messages t p =
      ((Partition.append K io messages (files t p.dir) p.partition).1,
        t.insert p.dir (Partition.append K io messages (files t p.dir) p.partition).2.1,
        ⟨p.dir, (Partition.append K io messages (files t p.dir) p.partition).2.2⟩) := by
  have hcreate : unlessDir t p.dir p.partition.nextOffset io.create = io.create := by
    unfold unlessDir
    rw [h.dir, List.append_assoc, List.append_assoc]
    cases io.create <;> simp [hlaid.deep]
  unfold appendTo
  rw [hcreate]

/-- The files of one partition change. -/
theorem Laid.insert (h : Laid dataDir t) (hname : Plain name) (hid : id < 2 ^ 32)
    (hdir : isDir t (dataDir ++ [name.toList, partitionName id]) = true) (d : Dir) :
    Laid dataDir (t.insert (dataDir ++ [name.toList, partitionName id]) d) := by
  have htopic : (t.insert (dataDir ++ [name.toList, partitionName id]) d).get
      (dataDir ++ [name.toList]) = t.get (dataDir ++ [name.toList]) :=
    Table.get_insert_ne _ (by simp)
  refine h.change hname hid (fun loc _ hne => Table.get_insert_ne _ hne) (.inr htopic) fun _ => ?_
  rw [DirTree.isDir, htopic]
  exact (h.partition _ _ hdir).1

/-- One partition of a topic changes. -/
theorem TopicKept.set {topic : StoredTopic} {logs : List (List Message)} {log : List Message}
    {p : StoredPartition} (h : TopicKept K dataDir t name topic logs) (hid : id < logs.length)
    (hthis : KeptAt K dataDir t' name id p log)
    (hothers : ∀ i, i ≠ id → contents t' dataDir name.toList i = contents t dataDir name.toList i) :
    TopicKept K dataDir t' name { topic with partitions := topic.partitions.set id p }
      (logs.set id log) := by
  refine ⟨h.plain, h.topicName, ?_, ?_, ?_, fun i p' log' hp hlog => ?_, fun i hi => ?_⟩
  · rw [List.length_set, List.length_set, h.length]
  · rw [List.length_set]
    exact h.pos
  · rw [List.length_set]
    exact h.lt
  · by_cases hi : i = id
    · subst hi
      rw [List.getElem?_set_self (h.length ▸ hid)] at hp
      rw [List.getElem?_set_self hid] at hlog
      cases hp
      cases hlog
      exact hthis
    · rw [List.getElem?_set_ne (Ne.symm hi)] at hp hlog
      exact (h.kept i p' log' hp hlog).frame (hothers i hi)
  · rw [List.length_set] at hi
    rw [hothers i (by omega)]
    exact h.absent i hi

/-- A call changes one partition, with the files of its directory. -/
theorem Cataloged.set (h : Cataloged K dataDir s) {topic : StoredTopic} {logs : List (List Message)}
    {log : List Message} {p : StoredPartition} {catalog : Catalog} {d : Dir}
    (hkept : TopicKept K dataDir s.store.tree name topic logs) (hid : id < logs.length)
    (hthis : KeptAt K dataDir (s.store.tree.insert (dataDir ++ [name.toList, partitionName id]) d)
      name id p log)
    (hget : catalog.get name = some (logs.set id log))
    (hcatalog : ∀ other, other ≠ name → catalog.get other = s.catalog.get other) :
    Cataloged K dataDir
      ⟨⟨s.store.topics.insert name { topic with partitions := topic.partitions.set id p },
        s.store.tree.insert (dataDir ++ [name.toList, partitionName id]) d⟩, catalog⟩ := by
  refine h.change name (h.laid.insert hkept.plain (by have := hkept.lt; omega)
    ((hkept.isSome_iff id).2 hid) d) (fun _ hne => Table.get_insert_ne _ hne) hcatalog
    (fun other hne i => Table.get_insert_ne _ ?_)
    (.inl ⟨_, _, Table.get_insert_self .., hget, hkept.set hid hthis fun i hne =>
      Table.get_insert_ne _ ?_⟩)
  · simpa [String.toList_inj] using fun heq => absurd heq hne
  · simpa [partitionName_inj] using hne

/-- **An append** that is written properly: refused, with what it held, or behind it. -/
theorem KeptAt.written (hK : K.Lawful) {p : StoredPartition} {log : List Message}
    (h : KeptAt K dataDir t name id p log) (hlaid : Laid dataDir t) {io : PartitionIo}
    {messages : List Message} (hwritten : Written K io messages t p) :
    ∃ r d p', appendTo K io messages t p =
        (r, t.insert (dataDir ++ [name.toList, partitionName id]) d, p') ∧
      ((∃ e, r = .error e ∧ KeptAt K dataDir
          (t.insert (dataDir ++ [name.toList, partitionName id]) d) name id p' log) ∨
        (r = .ok log.length ∧ KeptAt K dataDir
          (t.insert (dataDir ++ [name.toList, partitionName id]) d) name id p' (log ++ messages))) := by
  rw [← h.dir]
  unfold Written at hwritten
  rw [h.appendTo_eq hlaid] at hwritten ⊢
  rcases happ : Partition.append K io messages (files t p.dir) p.partition with ⟨r, d, partition⟩
  rw [happ] at hwritten
  refine ⟨r, d, _, rfl, ?_⟩
  cases r with
  | error e =>
    obtain ⟨hfiles, hp⟩ := hwritten
    simp only at hfiles hp ⊢
    refine .inl ⟨e, rfl, ?_⟩
    rw [hp]
    refine ⟨h.dir, isDir_iff.2 ⟨d, Table.get_insert_self ..⟩, h.config, ?_⟩
    rw [hfiles]
    exact h.kept
  | ok n =>
    obtain ⟨hn, hkept⟩ := h.append hK hwritten.1 hwritten.2 happ
    exact .inr ⟨congrArg Except.ok hn, hkept⟩

/-- **An append** that is written properly. -/
theorem Cataloged.append (hK : K.Lawful) (h : Cataloged K dataDir s) {id : Nat} {io : PartitionIo}
    {messages : List Message}
    (hwritten : ∀ topic p, s.store.find name id = .ok (topic, p) → Written K io messages s.store.tree p)
    {s' : CatalogState} (hstep : catalogNext K dataDir s (.append name id io messages) = some s') :
    Cataloged K dataDir s' ∧ ∀ n, (s.store.append K io messages name id).1 = .ok n →
      s.catalog.nextOffset name id = .ok n := by
  cases hstep
  rcases append_cases K io messages name id s.store with
    ⟨e, hfind, happ⟩ | ⟨topic, p, htopic, hp, happ⟩
  · rw [happ]
    exact ⟨h, fun n hn => nomatch hn⟩
  · obtain ⟨logs, hlogs, hkept⟩ := h.served name topic htopic
    obtain ⟨hlt, -⟩ := List.getElem?_eq_some_iff.1 hp
    have hid : id < logs.length := hkept.length ▸ hlt
    have hlog : logs[id]? = some logs[id] := List.getElem?_eq_getElem hid
    obtain ⟨r, d, p', heq, hcases⟩ := (hkept.kept id p _ hp hlog).written hK h.laid
      (hwritten topic p (find_ok_iff.2 ⟨htopic, hp⟩))
    rw [happ, heq]
    rcases hcases with ⟨e, rfl, hat⟩ | ⟨rfl, hat⟩
    · refine ⟨h.set hkept hid hat ?_ fun _ _ => rfl, fun n hn => nomatch hn⟩
      rw [List.set_getElem_self, hlogs]
    · refine ⟨h.set hkept hid hat ?_ fun other hne => ?_, fun n hn => ?_⟩
      · unfold Catalog.append
        rw [hlogs]
        simp only [Table.get_insert_self, List.modify_eq_set_getElem?, hlog]
        rfl
      · unfold Catalog.append
        rw [hlogs]
        exact Table.get_insert_ne _ hne
      · cases hn
        unfold Catalog.nextOffset
        rw [Catalog.find_ok_iff.2 ⟨logs, hlogs, hlog⟩]

/-- An append that the file system takes is acknowledged, if there is room. -/
theorem Cataloged.append_done (h : Cataloged K dataDir s) {id n : Nat} {messages : List Message}
    (hn : s.catalog.nextOffset name id = .ok n) (hroom : Room K n messages) :
    (s.store.append K .done messages name id).1 = .ok n := by
  unfold Catalog.nextOffset at hn
  rcases h.find name id with ⟨e, -, hlog⟩ | ⟨topic, p, log, hfind, hlog, hat⟩
  · rw [hlog] at hn
    cases hn
  · rw [hlog] at hn
    cases hn
    unfold TopicStore.append
    rw [hfind]
    simp only [hat.appendTo_eq h.laid]
    exact hat.append_done hroom

/-- The topics that are opened on the files are those of the catalog. -/
theorem Cataloged.openTopic (h : Cataloged K dataDir s) {listing : Listing}
    (hlists : Lists s.store.tree listing) (hdir : isDir s.store.tree (dataDir ++ [name.toList]) = true) :
    (∃ topic logs, openTopic K listing s.store.tree dataDir name = .ok topic ∧
        s.catalog.get name = some logs ∧ TopicKept K dataDir s.store.tree name topic logs) ∨
      (s.catalog.get name = none ∧
        (∃ k, Leftover (contents s.store.tree dataDir name.toList) k) ∧
        ∃ e, openTopic K listing s.store.tree dataDir name = .error (.error e)) := by
  cases hget : s.store.topics.get name with
  | some topic =>
    obtain ⟨logs, hlogs, hkept⟩ := h.served name topic hget
    obtain ⟨-, opened, hopen, hkept'⟩ := hkept.reopen h.laid hlists
    exact .inl ⟨opened, logs, hopen, hlogs, hkept'⟩
  | none =>
    obtain ⟨hnone, k, hleft⟩ := h.rest name hget
    exact .inr ⟨hnone, ⟨k, hleft⟩, openTopic_leftover h.laid hlists (h.laid.plain hdir) hdir hleft⟩

/-- **A restart** finds everything that the catalog says. -/
theorem Cataloged.reopens (h : Cataloged K dataDir s) {listing : Listing}
    (hlists : Lists s.store.tree listing) :
    ∃ opened, open_ K listing dataDir s.store.tree = .ok opened ∧
      Cataloged K dataDir ⟨opened, s.catalog⟩ := by
  have hroot : isDir s.store.tree dataDir = true := isDir_iff.2 ⟨_, h.laid.root⟩
  obtain ⟨topics, htopics⟩ : ∃ topics,
      openTopics K listing s.store.tree dataDir (listing dataDir) Table.empty = .ok topics := by
    apply openTopics_total
    intro entry hentry
    have hdir : isDir s.store.tree (dataDir ++ [(String.ofList entry).toList]) = true := by
      rw [String.toList_ofList]
      refine ((hlists.mem_iff hroot).1 hentry).resolve_left ?_
      rw [isFile, h.laid.files_root]
      simp
    rcases h.openTopic hlists hdir with ⟨topic, logs, hopen, -⟩ | ⟨-, -, e, hopen⟩
    · rw [hopen]
      rfl
    · rw [hopen]
      rfl
  have hopen : open_ K listing dataDir s.store.tree = .ok ⟨topics, s.store.tree⟩ := by
    unfold open_
    rw [if_pos hroot, htopics]
  have hserved := (served_iff hlists hroot hopen).2
  refine ⟨_, hopen, h.laid, fun name topic htopic => ?_, fun name hnone => ?_⟩
  · obtain ⟨hdir, hopened⟩ := (hserved name topic).1 htopic
    rcases h.openTopic hlists hdir with ⟨topic', logs, hopen', hlogs, hkept⟩ | ⟨-, -, e, he⟩
    · obtain rfl := Except.ok.inj (hopened.symm.trans hopen')
      exact ⟨logs, hlogs, hkept⟩
    · cases hopened.symm.trans he
  · cases hget : s.store.topics.get name with
    | some topic =>
      obtain ⟨logs, -, hkept⟩ := h.served name topic hget
      obtain ⟨hdir, opened, hopened, -⟩ := hkept.reopen h.laid hlists
      cases hnone.symm.trans ((hserved name opened).2 ⟨hdir, hopened⟩)
    | none => exact h.rest name hget

/-- **Every call** keeps the manager and its files in step with the catalog. -/
theorem Cataloged.next (hK : K.Lawful) (h : Cataloged K dataDir s) {call : StoreCall}
    {s' : CatalogState} (hlasts : Lasts K dataDir s call s')
    (hstep : catalogNext K dataDir s call = some s') : Cataloged K dataDir s' := by
  cases call with
  | create call => exact h.create hlasts hstep
  | append name id io messages => exact (h.append hK hlasts hstep).1
  | restart listing =>
    simp only [catalogNext, Option.ite_none_right_eq_some] at hstep
    obtain ⟨hlists, hstep⟩ := hstep
    obtain ⟨opened, hopen, hopened⟩ := h.reopens hlists
    rw [hopen] at hstep
    cases hstep
    exact hopened

theorem cataloged_new (h : Fresh dataDir t) : Cataloged K dataDir (CatalogState.new t) := by
  refine ⟨h.laid, fun name topic hget => (nomatch hget), fun name _ => ⟨rfl, 0, ?_⟩⟩
  exact ⟨fun i _ => h.contents _ i, fun _ _ => by omega, fun _ _ => by omega⟩

/-- The manager answers as its catalog does, and so does every one that is opened on its files. -/
def ReflectsAnyway (K : Crates) (dataDir : Location) (s : CatalogState) : Prop :=
  Reflects K s.store s.catalog ∧ ∀ listing, Lists s.store.tree listing →
    ∃ opened, open_ K listing dataDir s.store.tree = .ok opened ∧ Reflects K opened s.catalog

/-- An append answers with the number of messages before its own; and it is acknowledged if the partition is
there, the file system takes it and there is room. -/
def AnswersNext (K : Crates) (s : CatalogState) (call : StoreCall) (_ : CatalogState) : Prop :=
  match call with
  | .append name id io messages =>
    (∀ n, (s.store.append K io messages name id).1 = .ok n → s.catalog.nextOffset name id = .ok n) ∧
      ∀ n, s.catalog.nextOffset name id = .ok n → Room K n messages → io = .done →
        (s.store.append K io messages name id).1 = .ok n
  | _ => True

end Catalog

/-! ## A run -/

/-- The append succeeds, with messages without keys. -/
def WrittenPlainly (io : PartitionIo) (messages : List Message) (t : Tree) (p : StoredPartition) : Prop :=
  (appendTo plainCrates io messages t p).1.toOption.isSome = true ∧
    (∀ m ∈ messages, m.key = none ∧ m.value.length < 2 ^ 31) ∧
    CursorSafe ⟨files t p.dir, some p.partition, []⟩ (.append io messages)
      ⟨files t p.dir, some p.partition, []⟩

instance decidableWrittenPlainly (io : PartitionIo) (messages : List Message) (t : Tree)
    (p : StoredPartition) : Decidable (WrittenPlainly io messages t p) :=
  inferInstanceAs (Decidable (_ ∧ _ ∧ _))

theorem WrittenPlainly.written {io : PartitionIo} {messages : List Message} {p : StoredPartition}
    (h : WrittenPlainly io messages t p) : Written plainCrates io messages t p := by
  obtain ⟨hok, hplain, hsafe⟩ := h
  unfold Written
  rcases happ : appendTo plainCrates io messages t p with ⟨r, t', p'⟩
  rw [happ] at hok
  cases r with
  | error e => cases hok
  | ok n =>
    refine ⟨fun m hm => ?_, hsafe⟩
    obtain ⟨hkey, hvalue⟩ := hplain m hm
    refine fits_plain _ (fun key hsome => ?_) ?_
    · cases hkey.symm.trans hsome
    · rw [hkey, Option.elim_none]
      omega

/-- What lasts, as far as it can be evaluated. -/
def LastsPlainly (dataDir : Location) (s : CatalogState) (call : StoreCall) (_ : CatalogState) : Prop :=
  match call with
  | .create call => Lasting dataDir ⟨s.store, Table.empty⟩ call ⟨s.store, Table.empty⟩
  | .append name id io messages => ∀ found ∈ (s.store.find name id).toOption,
      WrittenPlainly io messages s.store.tree found.2
  | .restart _ => True

instance decidableLastsPlainly (s : CatalogState) (call : StoreCall) (s' : CatalogState) :
    Decidable (LastsPlainly dataDir s call s') :=
  match call with
  | .create call =>
    inferInstanceAs (Decidable (Lasting dataDir ⟨s.store, Table.empty⟩ call ⟨s.store, Table.empty⟩))
  | .append name id _ _ => inferInstanceAs (Decidable (∀ _ ∈ (s.store.find name id).toOption, _))
  | .restart _ => isTrue trivial

theorem LastsPlainly.lasts {s s' : CatalogState} {call : StoreCall}
    (h : LastsPlainly dataDir s call s') : Lasts plainCrates dataDir s call s' := by
  cases call with
  | create call => exact h
  | append name id io messages =>
    intro topic p hfind
    exact (h (topic, p) (by rw [hfind]; rfl)).written
  | restart listing => trivial

/-- The entries of a directory tree with the topics `a` and `b`, one partition each, and only the log
file in the latter. -/
def twoTopicsListing : Listing := fun loc =>
  if loc = [] then [['d']]
  else if loc = [['d']] then [['b'], ['a']]
  else if loc = [['d'], ['a']] ∨ loc = [['d'], ['b']] then [partitionName 0]
  else if loc = [['d'], ['a'], partitionName 0] then [indexPath 0, logPath 0]
  else if loc = [['d'], ['b'], partitionName 0] then [logPath 0]
  else []

theorem one_lt_partitions : 1 < 2 ^ 32 := by decide

/-- A topic with messages, a creation that fails, an append to the topic that is not there, a restart and an
append behind it. -/
def catalogCalls : List StoreCall :=
  [.create ⟨"a", 1, one_lt_partitions, fun _ => .done⟩,
    .append "a" 0 .done [⟨none, [1, 2], 0⟩, ⟨none, [3], 0⟩],
    .create ⟨"b", 1, one_lt_partitions, fun _ => .indexFails⟩,
    .append "b" 0 .done [⟨none, [9], 0⟩],
    .restart twoTopicsListing,
    .append "a" 0 .done [⟨none, [4], 0⟩]]

end Gaffa
