import Gaffa.Storage.Survival

/-!
# Topics on one data directory

A topic's partitions live in directories that are named after it, as a path.  Two names that lead
to one directory share their files: what is appended under one of them is read back under the
other after a restart.

* `AppendedTo`: what appends to a topic leave as it is, `Housed.append`: every append does.
* `openTopic_frame`: the topics that are opened from files that no append has changed.
* `topics_isolated`: appends to a topic whose directory is its own.
-/

set_option autoImplicit false

namespace Gaffa

open ByteString FileSystem DirTree Transition TopicStore

variable {K : Crates} {dataDir : Location} {name other : String} {s t u : TopicStore}

/-- An append to one partition of a topic. -/
structure TopicAppend where
  partition : Nat
  io : PartitionIo
  messages : List Message

/-- A topic is created, a topic gets a sequence of appends, the manager is opened again. -/
inductive StoreEvent where
  | create (call : Creation)
  | appends (name : String) (batches : List TopicAppend)
  | restart (listing : Listing)

/-- A sequence of appends to one topic, some of which may fail. -/
def appendAll (K : Crates) (name : String) : List TopicAppend → TopicStore → TopicStore
  | [], s => s
  | batch :: batches, s =>
    appendAll K name batches (s.append K batch.io batch.messages name batch.partition).2

/-- The steps of a topic manager on a data directory. -/
def storeNext (K : Crates) (dataDir : Location) (s : TopicStore) : StoreEvent → Option TopicStore
  | .create call => some (s.createTopic call.io dataDir call.name call.partitions).2
  | .appends name batches => some (appendAll K name batches s)
  | .restart listing =>
    if Lists s.tree listing then
      match open_ K listing dataDir s.tree with
      | .ok opened => some opened
      | .error _ => none
    else none

/-- Two states of the manager answer alike about a topic. -/
def SameViews (K : Crates) (name : String) (s t : TopicStore) : Prop :=
  (∀ id offset maxMessages,
    t.fetch K name id offset maxMessages = s.fetch K name id offset maxMessages) ∧
  ∀ id, t.nextOffset name id = s.nextOffset name id

/-- Appends to a topic change nothing that is read from another, then and after a restart. -/
def Isolated (K : Crates) (dataDir : Location) (s : TopicStore) (e : StoreEvent)
    (t : TopicStore) : Prop :=
  match e with
  | .appends name _ => ∀ other, other ≠ name → (s.topics.get name).isSome = true →
      (s.topics.get other).isSome = true → SameViews K other s t ∧
      ∀ listing listing' s' t', Lists s.tree listing → Lists t.tree listing' →
        open_ K listing dataDir s.tree = .ok s' → open_ K listing' dataDir t.tree = .ok t' →
        SameViews K other s' t'
  | _ => True

/-- The topic that is appended to has its directory for itself. -/
def Apart (dataDir : Location) (s : TopicStore) (e : StoreEvent) (_ : TopicStore) : Prop :=
  match e with
  | .appends name _ => ∀ other ∈ s.topics.keys, other ≠ name →
      topicDir dataDir other ≠ topicDir dataDir name
  | _ => True

instance decidableApart (dataDir : Location) (s : TopicStore) :
    ∀ (e : StoreEvent) (t : TopicStore), Decidable (Apart dataDir s e t)
  | .create _, _ => isTrue trivial
  | .appends _ _, _ => inferInstanceAs (Decidable (∀ other ∈ s.topics.keys, _))
  | .restart _, _ => isTrue trivial

/-! ## Where the partitions are -/

/-- The partitions of a topic are in directories of its directory. -/
structure Housed (dataDir : Location) (s : TopicStore) : Prop where
  root : isDir s.tree dataDir = true
  named : WellNamed s.tree
  dirs : ∀ name topic, s.topics.get name = some topic → ∀ p ∈ topic.partitions,
    p.dir.dropLast = topicDir dataDir name ∧ isDir s.tree p.dir = true

theorem Housed.create (h : Housed dataDir s) (io : Nat → SetupIo) (name : String)
    (partitions : Nat) : Housed dataDir (s.createTopic io dataDir name partitions).2 := by
  have hgrows := newTopic_grows io dataDir name (List.range partitions) s.tree
  have hkept : ∀ name' topic, s.topics.get name' = some topic → ∀ p ∈ topic.partitions,
      p.dir.dropLast = topicDir dataDir name' ∧
        isDir (newTopic io dataDir name (List.range partitions) s.tree).2 p.dir = true := by
    intro name' topic hget p hp
    obtain ⟨hdrop, hdir⟩ := h.dirs name' topic hget p hp
    exact ⟨hdrop, hgrows.kept _ hdir⟩
  rcases createTopic_cases io dataDir name partitions s with
    ⟨-, e, hrefused⟩ | ⟨-, e, t, hnew, hfailed⟩ | ⟨-, ps, t, hnew, hdone⟩
  · rw [hrefused]
    exact h
  · rw [hfailed]
    rw [hnew] at hgrows hkept
    exact ⟨hgrows.kept _ h.root, hgrows.named h.named, hkept⟩
  · rw [hdone]
    rw [hnew] at hgrows hkept
    refine ⟨hgrows.kept _ h.root, hgrows.named h.named, ?_⟩
    intro name' topic hget p hp
    rcases Table.get_insert_cases hget with ⟨rfl, rfl⟩ | ⟨-, hold⟩
    · rw [freshTopic, ← newTopic_ok hnew] at hp
      refine ⟨?_, newTopic_isDir hnew p hp⟩
      rw [newTopic_ok hnew] at hp
      obtain ⟨id, -, rfl⟩ := List.mem_map.1 hp
      exact List.dropLast_concat
    · exact hkept name' topic hold p hp

theorem Housed.restart (h : Housed dataDir s) {listing : Listing} (hlists : Lists s.tree listing)
    (hopen : open_ K listing dataDir s.tree = .ok t) : Housed dataDir t := by
  obtain ⟨htree, hserved⟩ := served_iff hlists h.root hopen
  refine ⟨htree ▸ h.root, htree ▸ h.named, ?_⟩
  intro name topic hget p hp
  obtain ⟨-, hopened⟩ := (hserved name topic).1 hget
  obtain ⟨id, hpartition⟩ := openTopic_mem hopened hp
  obtain ⟨hdir, hisDir, -⟩ := openPartition_ok hpartition
  exact ⟨by rw [hdir, List.dropLast_concat], htree ▸ hisDir⟩

/-! ## What appends leave alone -/

/-- What appends to a topic leave as it is. -/
structure AppendedTo (dataDir : Location) (name : String) (s t : TopicStore) : Prop where
  topics : ∀ other, other ≠ name → t.topics.get other = s.topics.get other
  dirs : ∀ loc, isDir t.tree loc = isDir s.tree loc
  contents : ∀ loc, loc.dropLast ≠ topicDir dataDir name → t.tree.get loc = s.tree.get loc

theorem AppendedTo.refl (dataDir : Location) (name : String) (s : TopicStore) :
    AppendedTo dataDir name s s := ⟨fun _ _ => rfl, fun _ => rfl, fun _ _ => rfl⟩

theorem AppendedTo.trans (h : AppendedTo dataDir name s t) (h' : AppendedTo dataDir name t u) :
    AppendedTo dataDir name s u where
  topics other hne := (h'.topics other hne).trans (h.topics other hne)
  dirs loc := (h'.dirs loc).trans (h.dirs loc)
  contents loc hne := (h'.contents loc hne).trans (h.contents loc hne)

/-- **One append.** -/
theorem Housed.append (h : Housed dataDir s) (io : PartitionIo) (messages : List Message)
    (name : String) (id : Nat) : AppendedTo dataDir name s (s.append K io messages name id).2 ∧
      Housed dataDir (s.append K io messages name id).2 := by
  rcases append_cases K io messages name id s with ⟨e, -, happ⟩ | ⟨topic, p, hget, hp, happ⟩
  · rw [happ]
    exact ⟨AppendedTo.refl .., h⟩
  · rw [happ]
    obtain ⟨hdrop, hdir⟩ := h.dirs name topic hget p (List.mem_of_getElem? hp)
    have hsame : ∀ loc, isDir (appendTo K io messages s.tree p).2.1 loc = isDir s.tree loc := by
      intro loc
      unfold appendTo
      rw [isDir_insert]
      by_cases heq : loc = p.dir
      · rw [heq, hdir, Bool.or_true]
      · rw [decide_eq_false heq, Bool.false_or]
    refine ⟨⟨fun other hne => Table.get_insert_ne _ hne, hsame, ?_⟩, ?_, ?_, ?_⟩
    · intro loc hne
      apply Table.get_insert_ne
      rintro rfl
      exact hne hdrop
    · exact (hsame dataDir).trans h.root
    · intro parent entry hentry
      exact h.named parent entry ((hsame _).symm.trans hentry)
    · intro name' topic' hget' q hq
      rw [hsame]
      rcases Table.get_insert_cases hget' with ⟨rfl, rfl⟩ | ⟨-, hold⟩
      · rcases List.mem_or_eq_of_mem_set hq with hq | rfl
        · exact h.dirs name' topic hget q hq
        · exact ⟨hdrop, hdir⟩
      · exact h.dirs name' topic' hold q hq

theorem Housed.appendAll (name : String) : ∀ (batches : List TopicAppend) {s : TopicStore},
    Housed dataDir s → AppendedTo dataDir name s (appendAll K name batches s) ∧
      Housed dataDir (appendAll K name batches s)
  | [], s, h => ⟨AppendedTo.refl .., h⟩
  | batch :: batches, s, h => by
    obtain ⟨hfirst, hhoused⟩ := h.append (K := K) batch.io batch.messages name batch.partition
    obtain ⟨hrest, hhoused'⟩ := Housed.appendAll name batches hhoused
    exact ⟨hfirst.trans hrest, hhoused'⟩

theorem Housed.next (h : Housed dataDir s) {e : StoreEvent}
    (hstep : storeNext K dataDir s e = some t) : Housed dataDir t := by
  cases e with
  | create call =>
    cases hstep
    exact h.create call.io call.name call.partitions
  | appends name batches =>
    cases hstep
    exact (h.appendAll name batches).2
  | restart listing =>
    simp only [storeNext] at hstep
    split at hstep
    · rename_i hlists
      split at hstep
      · rename_i hopen
        cases hstep
        exact h.restart hlists hopen
      · cases hstep
    · cases hstep

/-! ## What is read from another topic -/

/-- The same topic, over the same files. -/
theorem sameViews_of (hget : t.topics.get name = s.topics.get name)
    (hfiles : ∀ topic, s.topics.get name = some topic → ∀ p ∈ topic.partitions,
      t.tree.get p.dir = s.tree.get p.dir) : SameViews K name s t := by
  have hfind : ∀ id, t.find name id = s.find name id := by
    intro id
    unfold find getTopic
    rw [hget]
  constructor
  · intro id offset maxMessages
    unfold TopicStore.fetch
    rw [hfind id]
    cases hfound : s.find name id with
    | error e => rfl
    | ok found =>
      obtain ⟨htopic, hp⟩ := find_ok_iff.1 hfound
      have hdir := hfiles _ htopic found.2 (List.mem_of_getElem? hp)
      simp only [files, hdir]
  · intro id
    unfold TopicStore.nextOffset
    rw [hfind id]

theorem openWithConfig_congr {listing listing' : List FileName} (h : listing.Perm listing')
    (topicName : String) (partitionId : Nat) (config : SegmentConfig) (d : Dir) :
    Partition.openWithConfig K topicName partitionId config listing d =
      Partition.openWithConfig K topicName partitionId config listing' d := by
  unfold Partition.openWithConfig
  rw [Table.mergeSort_congr (h.filterMap segmentOffset)]

section Reopen

variable {listing listing' : Listing}

theorem partitionIds_frame (hdirs : ∀ loc, isDir t.tree loc = isDir s.tree loc) {dir : Location}
    (hlists : Lists s.tree listing) (hlists' : Lists t.tree listing')
    (hdir : isDir s.tree dir = true) :
    partitionIds listing s.tree dir = partitionIds listing' t.tree dir := by
  have hdir' : isDir t.tree dir = true := (hdirs dir).trans hdir
  have hnodup := hlists.nodup dir ((s.tree.mem_keys dir).2 hdir)
  have hnodup' := hlists'.nodup dir ((t.tree.mem_keys dir).2 hdir')
  unfold partitionIds
  apply Table.mergeSort_congr
  apply List.Perm.filterMap
  rw [List.perm_ext_iff_of_nodup (hnodup.filter _) (hnodup'.filter _)]
  intro entry
  rw [List.mem_filter, List.mem_filter, hlists.mem_iff hdir, hlists'.mem_iff hdir', hdirs]
  constructor
  · rintro ⟨-, hentry⟩
    exact ⟨Or.inr hentry, hentry⟩
  · rintro ⟨-, hentry⟩
    exact ⟨Or.inr hentry, hentry⟩

theorem openPartition_frame (h : AppendedTo dataDir name s t) (hlists : Lists s.tree listing)
    (hlists' : Lists t.tree listing') (hne : topicDir dataDir other ≠ topicDir dataDir name)
    (id : Nat) :
    openPartition K listing s.tree dataDir other id =
      openPartition K listing' t.tree dataDir other id := by
  have hget := h.contents (topicDir dataDir other ++ [partitionName id])
    (by rwa [List.dropLast_concat])
  unfold openPartition
  simp only [h.dirs, files, hget]
  split
  · rename_i hdir
    have hperm : (listing (topicDir dataDir other ++ [partitionName id])).Perm
        (listing' (topicDir dataDir other ++ [partitionName id])) := by
      apply hlists.perm hlists' hdir ((h.dirs _).trans hdir)
      intro file
      rw [isFile, isFile, files, files, hget, h.dirs]
    rw [openWithConfig_congr hperm]
  · rfl

/-- **A topic is opened alike** where appends have changed nothing. -/
theorem openTopic_frame (h : AppendedTo dataDir name s t) (hlists : Lists s.tree listing)
    (hlists' : Lists t.tree listing') (hne : topicDir dataDir other ≠ topicDir dataDir name)
    (hdir : isDir s.tree (topicDir dataDir other) = true) :
    openTopic K listing s.tree dataDir other = openTopic K listing' t.tree dataDir other := by
  have hpartitions : ∀ ids, openPartitions K listing s.tree dataDir other ids =
      openPartitions K listing' t.tree dataDir other ids := by
    intro ids
    induction ids with
    | nil => rfl
    | cons id ids ih =>
      unfold openPartitions
      rw [openPartition_frame h hlists hlists' hne id, ih]
  unfold openTopic
  rw [partitionIds_frame h.dirs hlists hlists' hdir]
  simp only [hpartitions]

end Reopen

/-- **Appends to a topic** whose directory is its own change nothing that is read from another. -/
theorem Housed.isolated (h : Housed dataDir s) {e : StoreEvent}
    (hstep : storeNext K dataDir s e = some t) (hapart : Apart dataDir s e t) :
    Isolated K dataDir s e t := by
  cases e with
  | create call => trivial
  | restart listing => trivial
  | appends name batches =>
    cases hstep
    intro other hother _ hserved
    have hframe := (h.appendAll (K := K) name batches).1
    have hne := hapart other ((s.topics.mem_keys other).2 hserved) hother
    constructor
    · apply sameViews_of (hframe.topics other hother)
      intro topic hget p hp
      apply hframe.contents
      rw [(h.dirs other topic hget p hp).1]
      exact hne
    · intro listing listing' s' t' hlists hlists' hopen hopen'
      obtain ⟨htree, hserved⟩ := served_iff hlists h.root hopen
      have hroot' := (hframe.dirs dataDir).trans h.root
      obtain ⟨htree', hserved'⟩ := served_iff hlists' hroot' hopen'
      have hget : t'.topics.get other = s'.topics.get other := by
        ext topic
        rw [hserved, hserved', hframe.dirs]
        apply and_congr_right
        intro hdir
        have htopicDir : topicDir dataDir other = dataDir ++ [other.toList] :=
          Plain.topicDir (h.named dataDir other.toList hdir) dataDir
        rw [openTopic_frame hframe hlists hlists' hne (htopicDir ▸ hdir)]
      apply sameViews_of hget
      intro topic htopic p hp
      obtain ⟨-, hopened⟩ := (hserved other topic).1 htopic
      obtain ⟨id, hpartition⟩ := openTopic_mem hopened hp
      rw [htree, htree']
      apply hframe.contents
      rw [(openPartition_ok hpartition).1, List.dropLast_concat]
      exact hne

/-- **Topics are isolated**, on every run in which topics that get appends have directories of their
own. -/
theorem topics_isolated {tree : Tree} (hroot : isDir tree dataDir = true)
    (hnamed : WellNamed tree) {tr : List (StoreEvent × TopicStore)}
    (hrun : Run (Steps (storeNext K dataDir)) ⟨Table.empty, tree⟩ tr)
    (hapart : EachStep (Apart dataDir) ⟨Table.empty, tree⟩ tr) :
    EachStep (Isolated K dataDir) ⟨Table.empty, tree⟩ tr := by
  have hhoused : Housed dataDir ⟨Table.empty, tree⟩ := by
    refine ⟨hroot, hnamed, ?_⟩
    intro name topic hget
    cases hget
  apply eachStep_of_invariant _ _ hhoused hrun hapart
  · intro s e t h hstep _
    exact h.next hstep
  · intro s e t h hstep hcond
    exact h.isolated hstep hcond

/-! ## Two runs -/

theorem wellNamed_emptyDataDir : WellNamed emptyDataDir := by
  intro parent name hdir
  have hkey : parent ++ [name] ∈ ({[], [['d']]} : Finset Location) := by
    rw [isDir, ← Table.mem_keys] at hdir
    exact (by decide : emptyDataDir.keys ⊆ ({[], [['d']]} : Finset Location)) hdir
  rcases Finset.mem_insert.1 hkey with hnil | hd
  · simp at hnil
  · have heq : parent ++ [name] = [] ++ [['d']] := Finset.mem_singleton.1 hd
    rw [(eq_of_concat_eq heq).2]
    decide

theorem one_lt : 1 < 2 ^ 32 := by decide

def createOne (name : String) : StoreEvent := .create ⟨name, 1, one_lt, fun _ => .done⟩

def appendOne (name : String) : StoreEvent := .appends name [⟨0, .done, [oneByte 1]⟩]

/-- Two names, two directories. -/
def twoTopics : List StoreEvent :=
  [createOne "a", createOne "b/c", appendOne "a", appendOne "b/c", appendOne "a"]

theorem topics_isolated_two :
    ∃ tr, trace (storeNext plainCrates [['d']]) ⟨Table.empty, emptyDataDir⟩ twoTopics = some tr ∧
      EachStep (Isolated plainCrates [['d']]) ⟨Table.empty, emptyDataDir⟩ tr := by
  obtain ⟨tr, htr⟩ := Option.isSome_iff_exists.1 (show (trace (storeNext plainCrates [['d']])
    ⟨Table.empty, emptyDataDir⟩ twoTopics).isSome = true by decide +kernel)
  have hapart : ∀ tr ∈ trace (storeNext plainCrates [['d']]) ⟨Table.empty, emptyDataDir⟩ twoTopics,
      EachStep (Apart [['d']]) ⟨Table.empty, emptyDataDir⟩ tr := by
    decide +kernel
  exact ⟨tr, htr, topics_isolated (by decide) wellNamed_emptyDataDir (run_of_trace htr)
    (hapart tr htr)⟩

/-- Two names, one directory. -/
def sharedTopics : TopicStore :=
  ((TopicStore.mk Table.empty emptyDataDir).createTopic (fun _ => .done) [['d']] "a" 1).2.createTopic
    (fun _ => .done) [['d']] "./a" 1 |>.2

def sharedAppended : TopicStore := (sharedTopics.append plainCrates .done [oneByte 1] "./a" 0).2

/-- The order in which `/d`, `/d/a` and `/d/a/partition-0` are listed. -/
def sharedListing : Listing := fun dir =>
  if dir = [['d']] then [['a']]
  else if dir = [['d'], ['a']] then [partitionName 0]
  else if dir = [['d'], ['a'], partitionName 0] then [logPath 0, indexPath 0]
  else [['d']]

/-- What is read from the first partition of `a` after a restart. -/
def reopenedFetch (s : TopicStore) : Except Fault (List Record) :=
  match open_ plainCrates sharedListing [['d']] s.tree with
  | .error e => .error e
  | .ok opened => opened.fetch plainCrates "a" 0 0 10

theorem reopenedFetch_of_isolated {s t : TopicStore}
    (h : ∀ listing listing' s' t', Lists s.tree listing → Lists t.tree listing' →
      open_ plainCrates listing [['d']] s.tree = .ok s' →
      open_ plainCrates listing' [['d']] t.tree = .ok t' → SameViews plainCrates "a" s' t')
    (hlists : Lists s.tree sharedListing) (hlists' : Lists t.tree sharedListing)
    (hopen : (open_ plainCrates sharedListing [['d']] s.tree).isOk = true)
    (hopen' : (open_ plainCrates sharedListing [['d']] t.tree).isOk = true) :
    reopenedFetch t = reopenedFetch s := by
  unfold reopenedFetch
  cases hs : open_ plainCrates sharedListing [['d']] s.tree with
  | error e =>
    rw [hs] at hopen
    cases hopen
  | ok s' =>
    cases ht : open_ plainCrates sharedListing [['d']] t.tree with
    | error e =>
      rw [ht] at hopen'
      cases hopen'
    | ok t' => exact (h _ _ s' t' hlists hlists' hs ht).1 0 0 10

/-- A message appended under one name is read under the other. -/
theorem shared_directory_read : ¬ ∀ tr : List (StoreEvent × TopicStore),
    Run (Steps (storeNext plainCrates [['d']])) ⟨Table.empty, emptyDataDir⟩ tr →
    EachStep (Isolated plainCrates [['d']]) ⟨Table.empty, emptyDataDir⟩ tr := by
  intro h
  obtain ⟨-, -, hisolated, -⟩ := h [(createOne "a", _), (createOne "./a", sharedTopics),
    (appendOne "./a", sharedAppended)] ⟨rfl, rfl, rfl, trivial⟩
  have hread := reopenedFetch_of_isolated (hisolated "a" (by decide) (by decide +kernel)
    (by decide +kernel)).2 (by decide +kernel) (by decide +kernel) (by decide +kernel)
    (by decide +kernel)
  exact absurd hread (by decide +kernel)

end Gaffa
