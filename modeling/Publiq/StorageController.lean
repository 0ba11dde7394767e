import Publiq.Coin
import Publiq.Foundation.Checked
import Publiq.Foundation.UnorderedMap
import Mathlib.Data.List.Induction
import Std.Data.ExtTreeMap

/-! `storage_controller` of `storage.cpp`: the files that a storage is to fetch, and which
of them are being fetched. -/
namespace Publiq
open Checked

/-- `StorageTypes::FileRequest`. -/
structure FileRequest where
  fileUri : String
  channelAddress : String
  deriving DecidableEq

/-- `storage_controller::initiate_type`. -/
inductive InitiateType where
  | check
  | revert
  deriving DecidableEq

/-- `storage_controller_internals`, its loader with what was committed last. -/
structure StorageController where
  /-- The channel to fetch a file from, by the file. -/
  map : Std.ExtTreeMap String String
  committed : Std.ExtTreeMap String String
  /-- `channels_files_requesting`: what is handed out, and whether its session has begun. -/
  requesting : UnorderedMap FileRequest Bool

/-- `STORAGE_MAX_FILE_REQUESTS`. -/
def storageMaxFileRequests : ℕ := 100

namespace StorageController

instance : Inhabited StorageController := ⟨⟨∅, ∅, ∅⟩⟩

/-- `enqueue`. Whether `map_loader::insert` replaces the channel of a file that is queued is
left open. -/
def enqueue (overwrites : Bool) (request : FileRequest) (c : StorageController) :
    StorageController :=
  { c with map :=
      if overwrites then c.map.insert request.fileUri request.channelAddress
      else c.map.insertIfNew request.fileUri request.channelAddress }

/-- `save` and `commit`. -/
def commit (c : StorageController) : StorageController := { c with committed := c.map }

/-- `discard`. -/
def discard (c : StorageController) : StorageController := { c with map := c.committed }

/-- `pop`. -/
def pop (request : FileRequest) (c : StorageController) : Checked StorageController := do
  require (request ∉ c.requesting.keys) (.logicError "pop: it_file != it_channel->second.end()")
  match c.map[request.fileUri]? with
  | none => .error (.outOfRange "map_loader::at")
  | some channelAddress =>
      if channelAddress = request.channelAddress then
        pure (commit { c with map := c.map.erase request.fileUri })
      else pure c

/-- `initiate`: the session of a file begins, or the file is given back. -/
def initiate (request : FileRequest) (initiateType : InitiateType) (c : StorageController) :
    Checked StorageController := do
  require (∃ other ∈ c.requesting.keys, other.channelAddress = request.channelAddress)
    (.logicError "initiate: it_channel == m_pimpl->channels_files_requesting.end()")
  match c.requesting.find? request with
  | none => .error (.logicError "initiate: it_file == it_channel->second.end()")
  | some initiated =>
      match initiateType with
      | .check => do
          require (initiated = false) (.logicError "initiate: false != it_file->second")
          pure { c with requesting := c.requesting.modify request fun _ => true }
      | .revert => pure { c with requesting := c.requesting.erase request }

def queue (c : StorageController) : List FileRequest :=
  c.map.toList.map fun entry => ⟨entry.1, entry.2⟩

/-- What the loop of `get_file_requests` changes. -/
structure Collecting where
  map : Std.ExtTreeMap String String
  requesting : UnorderedMap FileRequest Bool
  unresolvedChannels : List String
  countAll : ℕ
  fileToChannel : List FileRequest

/-- One file of the loop. -/
def collectStep (resolvedChannels : List String) (s : Collecting) (request : FileRequest) :
    Collecting :=
  if request.channelAddress ∉ resolvedChannels then
    if s.unresolvedChannels.length = 10 then
      if request.channelAddress ∉ s.unresolvedChannels then
        { s with map := s.map.erase request.fileUri }
      else s
    else if request.channelAddress ∈ s.unresolvedChannels then s
    else { s with unresolvedChannels := s.unresolvedChannels ++ [request.channelAddress] }
  else if s.countAll = storageMaxFileRequests then s
  else if request ∈ s.requesting.keys then s
  else
    { s with
      requesting := s.requesting.insert request false
      countAll := s.countAll + 1
      fileToChannel := s.fileToChannel ++ [request] }

/-- `get_file_requests`, over the queue in the order of its iteration: what is handed out. -/
def getFileRequests (resolvedChannels : List String) (files : List FileRequest)
    (c : StorageController) : List FileRequest × StorageController :=
  if c.requesting.entries.length ≠ 0 then ([], c)
  else
    let s := files.foldl (collectStep resolvedChannels) ⟨c.map, c.requesting, [], 0, []⟩
    (s.fileToChannel, { c with map := s.map, requesting := s.requesting })

theorem initiate_revert {c : StorageController} {request : FileRequest}
    (held : request ∈ c.requesting.keys) :
    c.initiate request .revert = .ok { c with requesting := c.requesting.erase request } := by
  rw [initiate, require_true ⟨request, held, rfl⟩, ok_bind]
  cases found : c.requesting.find? request with
  | none => exact absurd held (UnorderedMap.find?_eq_none_iff.mp found)
  | some initiated => rfl

theorem initiate_check {c : StorageController} {request : FileRequest}
    (waits : c.requesting.find? request = some false) :
    c.initiate request .check =
      .ok { c with requesting := c.requesting.modify request fun _ => true } := by
  have held : request ∈ c.requesting.keys := by
    by_contra absent
    rw [UnorderedMap.find?_eq_none_iff.mpr absent] at waits
    cases waits
  rw [initiate, require_true ⟨request, held, rfl⟩, ok_bind, waits]
  rfl

/-- What `pop` leaves of the queue. -/
def popped (request : FileRequest) (c : StorageController) : StorageController :=
  if c.map[request.fileUri]? = some request.channelAddress then
    commit { c with map := c.map.erase request.fileUri }
  else c

theorem pop_ok {c : StorageController} {request : FileRequest}
    (released : request ∉ c.requesting.keys) (queued : request.fileUri ∈ c.map) :
    c.pop request = .ok (c.popped request) := by
  rw [pop, require_true released, ok_bind, popped]
  cases found : c.map[request.fileUri]? with
  | none =>
      rw [Std.ExtTreeMap.mem_iff_isSome_getElem?, found] at queued
      cases queued
  | some channelAddress =>
      by_cases same : channelAddress = request.channelAddress
      · simp [same]
        rfl
      · simp [same]
        rfl

@[simp] theorem popped_requesting (request : FileRequest) (c : StorageController) :
    (c.popped request).requesting = c.requesting := by
  unfold popped
  split_ifs
  · rfl
  · rfl

theorem popped_stays {c : StorageController} (request : FileRequest) {fileUri : String}
    (queued : fileUri ∈ c.map) : fileUri ∈ (c.popped request).map ∨ fileUri = request.fileUri := by
  by_cases same : fileUri = request.fileUri
  · exact .inr same
  · left
    unfold popped
    split_ifs
    · rw [commit, Std.ExtTreeMap.mem_erase]
      exact ⟨fun eq => same (Std.compare_eq_iff_eq.mp eq).symm, queued⟩
    · exact queued

theorem mem_queue {c : StorageController} {request : FileRequest} :
    request ∈ c.queue ↔ c.map[request.fileUri]? = some request.channelAddress := by
  rw [queue, List.mem_map, ← Std.ExtTreeMap.mem_toList_iff_getElem?_eq_some]
  constructor
  · rintro ⟨⟨fileUri, channelAddress⟩, entry, rfl⟩
    exact entry
  · intro entry
    exact ⟨_, entry, rfl⟩

theorem nodup_queue (c : StorageController) : (c.queue.map FileRequest.fileUri).Nodup := by
  rw [queue, List.map_map, List.Nodup, List.pairwise_map]
  apply Std.ExtTreeMap.distinct_keys_toList.imp
  intro a b apart same
  exact apart (Std.compare_eq_iff_eq.mpr same)

/-- The eviction of a file: its channel is not resolved, and neither are ten other channels
with queued files. -/
def Evictable (resolvedChannels : List String) (c : StorageController) (fileUri : String) :
    Prop :=
  ∃ channelAddress, c.map[fileUri]? = some channelAddress ∧ channelAddress ∉ resolvedChannels ∧
    ∃ unresolvedChannels : List String, unresolvedChannels.Nodup ∧
      unresolvedChannels.length = 10 ∧ channelAddress ∉ unresolvedChannels ∧
      ∀ other ∈ unresolvedChannels, other ∉ resolvedChannels ∧
        ∃ otherUri : String, c.map[otherUri]? = some other

/-- What holds in the loop of `get_file_requests` after some files. -/
structure Collected (resolvedChannels : List String) (c : StorageController)
    (files : List FileRequest) (s : Collecting) : Prop where
  /-- The files that are handed out are the ones that are being requested. -/
  keys : s.requesting.keys = s.fileToChannel
  waits : ∀ request ∈ s.fileToChannel, s.requesting.find? request = some false
  sublist : s.fileToChannel.Sublist files
  resolved : ∀ request ∈ s.fileToChannel, request.channelAddress ∈ resolvedChannels
  apart : s.unresolvedChannels.Nodup
  unresolved : ∀ channelAddress ∈ s.unresolvedChannels, channelAddress ∉ resolvedChannels ∧
    ∃ fileUri : String, c.map[fileUri]? = some channelAddress
  stays : ∀ fileUri ∈ c.map, fileUri ∈ s.map ∨ c.Evictable resolvedChannels fileUri

theorem collected_step {resolvedChannels : List String} {c : StorageController}
    {files : List FileRequest} {s : Collecting} {request : FileRequest}
    (h : Collected resolvedChannels c files s)
    (queued : c.map[request.fileUri]? = some request.channelAddress) :
    Collected resolvedChannels c (files ++ [request]) (collectStep resolvedChannels s request) := by
  have further : s.fileToChannel.Sublist (files ++ [request]) :=
    h.sublist.trans (List.sublist_append_left files [request])
  unfold collectStep
  split_ifs with resolved most held full known known
  · exact { h with sublist := further }
  · exact { h with sublist := further }
  · refine { h with keys := ?_, waits := ?_, sublist := ?_, resolved := ?_ }
    · rw [UnorderedMap.keys_insert held, h.keys]
    · intro other found
      by_cases same : other = request
      · rw [same, UnorderedMap.find?_insert_self, UnorderedMap.find?_eq_none_iff.mpr held]
        rfl
      · rw [UnorderedMap.find?_insert_ne _ _ same]
        rcases List.mem_append.mp found with found | found
        · exact h.waits other found
        · exact absurd (List.mem_singleton.mp found) same
    · exact h.sublist.append (List.Sublist.refl [request])
    · intro other found
      rcases List.mem_append.mp found with found | found
      · exact h.resolved other found
      · rw [List.mem_singleton.mp found]
        exact resolved
  · exact { h with sublist := further }
  · refine { h with sublist := further, stays := ?_ }
    intro fileUri found
    by_cases same : fileUri = request.fileUri
    · right
      rw [same]
      exact ⟨_, queued, resolved, _, h.apart, full, known, h.unresolved⟩
    · rcases h.stays fileUri found with stays | evicted
      · left
        rw [Std.ExtTreeMap.mem_erase]
        exact ⟨fun eq => same (Std.compare_eq_iff_eq.mp eq).symm, stays⟩
      · exact .inr evicted
  · exact { h with sublist := further }
  · refine { h with sublist := further, apart := ?_, unresolved := ?_ }
    · rw [List.nodup_append]
      refine ⟨h.apart, List.nodup_singleton _, ?_⟩
      intro a found b new eq
      rw [List.mem_singleton.mp new] at eq
      exact known (eq ▸ found)
    · intro channelAddress found
      rcases List.mem_append.mp found with found | found
      · exact h.unresolved channelAddress found
      · rw [List.mem_singleton.mp found]
        exact ⟨resolved, request.fileUri, queued⟩

theorem collected_files (resolvedChannels : List String) {c : StorageController}
    {files : List FileRequest} (empty : c.requesting.keys = [])
    (queued : ∀ request ∈ files, c.map[request.fileUri]? = some request.channelAddress) :
    Collected resolvedChannels c files
      (files.foldl (collectStep resolvedChannels) ⟨c.map, c.requesting, [], 0, []⟩) := by
  induction files using List.reverseRecOn with
  | nil =>
      refine ⟨empty, ?_, List.Sublist.refl [], ?_, List.nodup_nil, ?_, ?_⟩
      · intro request found
        cases found
      · intro request found
        cases found
      · intro channelAddress found
        cases found
      · intro fileUri found
        exact .inl found
  | append_singleton files request ih =>
      rw [List.foldl_append]
      apply collected_step
      · exact ih fun other found => queued other (List.mem_append_left _ found)
      · exact queued request (List.mem_append_right _ List.mem_cons_self)

/-- What `get_file_requests` has done when it hands files out. -/
structure HandsOut (resolvedChannels : List String) (c : StorageController)
    (requests : List FileRequest) (after : StorageController) : Prop where
  /-- Nothing was handed out before. -/
  empty : c.requesting.keys = []
  keys : after.requesting.keys = requests
  waits : ∀ request ∈ requests, after.requesting.find? request = some false
  apart : (requests.map FileRequest.fileUri).Nodup
  queued : ∀ request ∈ requests, request.fileUri ∈ after.map
  stays : ∀ fileUri ∈ c.map, fileUri ∈ after.map ∨ c.Evictable resolvedChannels fileUri

theorem getFileRequests_cases (resolvedChannels : List String) {files : List FileRequest}
    {c : StorageController} (all : files.Perm c.queue) :
    c.getFileRequests resolvedChannels files = ([], c) ∨
      HandsOut resolvedChannels c (c.getFileRequests resolvedChannels files).1
        (c.getFileRequests resolvedChannels files).2 := by
  by_cases busy : c.requesting.entries.length ≠ 0
  · left
    rw [getFileRequests, if_pos busy]
  · right
    have empty : c.requesting.keys = [] := by
      rw [UnorderedMap.keys, List.eq_nil_of_length_eq_zero (not_not.mp busy)]
      rfl
    have queued : ∀ request ∈ files, c.map[request.fileUri]? = some request.channelAddress := by
      intro request found
      exact mem_queue.mp (all.mem_iff.mp found)
    have done := collected_files resolvedChannels empty queued
    rw [getFileRequests, if_neg busy]
    refine ⟨empty, done.keys, done.waits, ?_, ?_, done.stays⟩
    · have once : (files.map FileRequest.fileUri).Nodup :=
        (all.map FileRequest.fileUri).nodup_iff.mpr c.nodup_queue
      exact once.sublist (done.sublist.map FileRequest.fileUri)
    · intro request found
      have entry := queued request (done.sublist.mem found)
      have present : request.fileUri ∈ c.map := by
        rw [Std.ExtTreeMap.mem_iff_isSome_getElem?, entry]
        rfl
      rcases done.stays request.fileUri present with stays | ⟨channelAddress, other, gone, _⟩
      · exact stays
      · -- the channels of what is handed out are resolved
        cases entry.symm.trans other
        exact absurd (done.resolved request found) gone

end StorageController

end Publiq
