import Publiq.StorageController
import Publiq.StorageSessions

/-! The fetching of queued files: `get_file_uris_callback` of `node::run`,
`session_action_request_file` and the callback of the file's saving. Each of them holds
files that `get_file_requests` handed out, and gives them back. -/
namespace Publiq
open Checked

/-- `session_action_request_file`. -/
structure RequestFileSession where
  request : FileRequest
  needToRevertInitiate : Bool
  initiated : Bool
  /-- `expected_next_package_type` is `StorageFile::rtt`. -/
  expected : Bool
  completed : Bool
  deriving DecidableEq

def RequestFileSession.new (request : FileRequest) : RequestFileSession :=
  ⟨request, true, false, false, false⟩

/-- The controller, and what holds the files that it has handed out. -/
structure FileFetching where
  controller : StorageController
  /-- The files of each `session_action_get_file_uris` that has not called back. -/
  listings : List (List FileRequest)
  requests : List RequestFileSession
  /-- The file of each `session_action_save_file` that has not called back. -/
  saves : List FileRequest
  /-- What `get_file_requests` has handed out, and what was given back, so far. -/
  handedOut : List FileRequest
  released : List FileRequest
  /-- What `initiate` and `pop` threw. -/
  thrown : List Failure

/-- What happens to the files. The order of a hash table, and what the peers and the streams
do, come with the event. -/
inductive FetchEvent where
  /-- A `StorageUpdateCommand`. -/
  | enqueue (request : FileRequest)
  /-- A block with its contents, which is saved or discarded. -/
  | block (requests : List FileRequest) (saved : Bool)
  | collect (resolvedChannels : List String) (files batch : List FileRequest)
  /-- The storage lists its files. Whether the sessions of a channel are taken, whether adding
  them throws, and whether the update of a file can be broadcast. -/
  | listed (index : ℕ) (fileUris : List String) (taken : String → Bool) (throws : Bool)
    (broadcasts : String → Bool)
  | unlisted (index : ℕ)
  | initiate (index : ℕ) (sent : Bool)
  /-- A `StorageFile`: whether its hash is the uri, and whether the session that saves it could
  be added. -/
  | fetched (index : ℕ) (verified added : Bool)
  /-- A `UriError`. -/
  | missing (index : ℕ) (uri : String)
  | destroy (index : ℕ)
  /-- The session that saves a file calls back. -/
  | saved (index : ℕ) (package : StoragePackage) (broadcasts : Bool)

def isStored (fileUri : String) : StoragePackage → Checked Bool
  | .storageFileAddress uri => do
      require (uri = fileUri) (.logicError "pfile_address->uri != file_uri_local")
      pure true
  | .uriError _ uriProblemType => pure (decide (uriProblemType = .duplicate))
  | _ => pure false

namespace FileFetching

def start : FileFetching := ⟨default, [], [], [], [], [], []⟩

/-- `initiate` with `revert`, and whether it returned. -/
def release (s : FileFetching) (request : FileRequest) : Bool × FileFetching :=
  match s.controller.initiate request .revert with
  | .ok controller => (true, { s with controller, released := s.released ++ [request] })
  | .error failure => (false, { s with thrown := s.thrown ++ [failure] })

/-- `pop`, and whether it returned. -/
def pop (s : FileFetching) (request : FileRequest) : Bool × FileFetching :=
  match s.controller.pop request with
  | .ok controller => (true, { s with controller })
  | .error failure => (false, { s with thrown := s.thrown ++ [failure] })

/-- `initiate` with `revert` for one file after another. -/
def releaseAll : List FileRequest → FileFetching → FileFetching
  | [], s => s
  | request :: rest, s =>
      let (returned, s) := s.release request
      if returned then releaseAll rest s else s

/-- The loop over `map_broadcast`, with `guard_map_broadcast`. -/
def broadcastLoop (broadcasts : String → Bool) : List FileRequest → FileFetching → FileFetching
  | [], s => s
  | request :: rest, s =>
      if broadcasts request.fileUri then
        let (returned, s) := s.release request
        if returned then
          let (returned, s) := s.pop request
          if returned then broadcastLoop broadcasts rest s else s.releaseAll rest
        else s.releaseAll (request :: rest)
      else s.releaseAll (request :: rest)

/-- `get_file_requests`, and the session that lists the files of the storage. -/
def collect (resolvedChannels : List String) (files batch : List FileRequest)
    (s : FileFetching) : FileFetching :=
  let (requests, controller) := s.controller.getFileRequests resolvedChannels files
  if files.Perm s.controller.queue ∧ batch.Perm requests then
    if batch = [] then { s with controller }
    else
      { s with
        controller
        listings := s.listings ++ [batch]
        handedOut := s.handedOut ++ batch }
  else s

/-- `get_file_uris_callback` with the files of the storage: those that are missing are asked
for from their channels, the others are popped. -/
def listed (index : ℕ) (fileUris : List String) (taken : String → Bool) (throws : Bool)
    (broadcasts : String → Bool) (s : FileFetching) : FileFetching :=
  match s.listings[index]? with
  | none => s
  | some batch =>
      let missing : List FileRequest := batch.filter fun request => request.fileUri ∉ fileUris
      let present : List FileRequest := batch.filter fun request => request.fileUri ∈ fileUris
      let s := { s with
        listings := s.listings.eraseIdx index
        requests := s.requests ++
          (missing.filter fun request : FileRequest => taken request.channelAddress).map
            RequestFileSession.new }
      let s := s.releaseAll (missing.filter fun request : FileRequest =>
        !taken request.channelAddress)
      if throws then s.releaseAll present else s.broadcastLoop broadcasts present

/-- `get_file_uris_callback` with anything else. -/
def unlisted (index : ℕ) (s : FileFetching) : FileFetching :=
  match s.listings[index]? with
  | none => s
  | some batch => { s with listings := s.listings.eraseIdx index }.releaseAll batch

/-- `session_action_request_file::initiate`, of a session that is not completed, once. -/
def initiate (index : ℕ) (sent : Bool) (s : FileFetching) : FileFetching :=
  match s.requests[index]? with
  | none => s
  | some session =>
      if session.initiated ∨ session.completed then s
      else
        match s.controller.initiate session.request .check with
        | .error failure => { s with thrown := s.thrown ++ [failure] }
        | .ok controller =>
            { s with
              controller
              requests := s.requests.set index
                { session with initiated := true, expected := sent } }

/-- `session_action_request_file::process` of a `StorageFile`. When the session that saves it
cannot be added, that session calls back, and this one goes on holding the file. -/
def fetched (index : ℕ) (verified added : Bool) (s : FileFetching) : FileFetching :=
  match s.requests[index]? with
  | none => s
  | some session =>
      if session.expected ∧ verified then
        if added then
          { s with
            requests := s.requests.set index
              { session with needToRevertInitiate := false, completed := true, expected := false }
            saves := s.saves ++ [session.request] }
        else (s.release session.request).2
      else s

/-- `session_action_request_file::process` of a `UriError`, while it is not completed. -/
def missing (index : ℕ) (uri : String) (s : FileFetching) : FileFetching :=
  match s.requests[index]? with
  | none => s
  | some session =>
      if session.completed = false ∧ uri = session.request.fileUri then
        let (returned, s) := s.release session.request
        if returned then
          let s := { s with
            requests := s.requests.set index { session with needToRevertInitiate := false } }
          let (returned, s) := s.pop session.request
          if returned then
            { s with
              requests := s.requests.set index
                { session with
                  needToRevertInitiate := false, completed := true, expected := false } }
          else s
        else s
      else s

/-- `~session_action_request_file`. -/
def destroy (index : ℕ) (s : FileFetching) : FileFetching :=
  match s.requests[index]? with
  | none => s
  | some session =>
      let s := { s with requests := s.requests.eraseIdx index }
      if session.needToRevertInitiate then (s.release session.request).2 else s

def saved (index : ℕ) (package : StoragePackage) (broadcasts : Bool) (s : FileFetching) :
    FileFetching :=
  match s.saves[index]? with
  | none => s
  | some request =>
      let (returned, s) := { s with saves := s.saves.eraseIdx index }.release request
      if returned ∧ isStored request.fileUri package = .ok true ∧ broadcasts then
        (s.pop request).2
      else s

def step (overwrites : Bool) (s : FileFetching) : FetchEvent → FileFetching
  | .enqueue request => { s with controller := s.controller.enqueue overwrites request }
  | .block requests saved =>
      let controller := requests.foldl (fun c request => c.enqueue overwrites request) s.controller
      { s with controller := if saved then controller.commit else controller.discard }
  | .collect resolvedChannels files batch => s.collect resolvedChannels files batch
  | .listed index fileUris taken throws broadcasts =>
      s.listed index fileUris taken throws broadcasts
  | .unlisted index => s.unlisted index
  | .initiate index sent => s.initiate index sent
  | .fetched index verified added => s.fetched index verified added
  | .missing index uri => s.missing index uri
  | .destroy index => s.destroy index
  | .saved index package broadcasts => s.saved index package broadcasts

def held (session : RequestFileSession) : List FileRequest :=
  if session.needToRevertInitiate then [session.request] else []

def waiting (session : RequestFileSession) : List FileRequest :=
  if session.initiated then [] else held session

def owners (s : FileFetching) : List FileRequest :=
  s.listings.flatten ++ s.requests.flatMap held ++ s.saves

def unbegun (s : FileFetching) : List FileRequest :=
  s.listings.flatten ++ s.requests.flatMap waiting

/-- The books of what is handed out, with a list of those that hold it. -/
structure Books (s : FileFetching) (unbegun owners : List FileRequest) : Prop where
  /-- What is being requested has one owner. -/
  owned : owners.Perm s.controller.requesting.keys
  waits : ∀ request ∈ unbegun, s.controller.requesting.find? request = some false
  queued : ∀ request ∈ owners, request.fileUri ∈ s.controller.map
  apart : (owners.map FileRequest.fileUri).Nodup
  balance : s.handedOut.Perm (s.released ++ owners)

/-- What a step leaves as it was; `left` are the files that it may take from the queue. -/
structure Frame (left : String → Prop) (s after : FileFetching) : Prop where
  listings : after.listings = s.listings
  requests : after.requests = s.requests
  saves : after.saves = s.saves
  handedOut : after.handedOut = s.handedOut
  thrown : after.thrown = s.thrown
  stays : ∀ fileUri ∈ s.controller.map, fileUri ∈ after.controller.map ∨ left fileUri

theorem Frame.refl (left : String → Prop) (s : FileFetching) : Frame left s s :=
  ⟨rfl, rfl, rfl, rfl, rfl, fun _ => .inl⟩

theorem Frame.trans {left : String → Prop} {s mid after : FileFetching}
    (first : Frame left s mid) (next : Frame left mid after) : Frame left s after where
  listings := next.listings.trans first.listings
  requests := next.requests.trans first.requests
  saves := next.saves.trans first.saves
  handedOut := next.handedOut.trans first.handedOut
  thrown := next.thrown.trans first.thrown
  stays fileUri found := by
    rcases first.stays fileUri found with found | gone
    · exact next.stays fileUri found
    · exact .inr gone

theorem Frame.mono {left left' : String → Prop} {s after : FileFetching}
    (h : Frame left s after) (imp : ∀ fileUri, left fileUri → left' fileUri) :
    Frame left' s after :=
  { h with stays := fun fileUri found => (h.stays fileUri found).imp_right (imp fileUri) }

/-- The books do not depend on where the owners stand. -/
theorem Books.of_perm {s after : FileFetching} {unbegun unbegun' owners owners' :
    List FileRequest} (h : Books s unbegun owners)
    (controller : after.controller = s.controller) (handedOut : after.handedOut = s.handedOut)
    (released : after.released = s.released) (perm : owners'.Perm owners)
    (fewer : unbegun' ⊆ unbegun) : Books after unbegun' owners' where
  owned := by
    rw [controller]
    exact perm.trans h.owned
  waits request found := by
    rw [controller]
    exact h.waits request (fewer found)
  queued request found := by
    rw [controller]
    exact h.queued request (perm.mem_iff.mp found)
  apart := (perm.map FileRequest.fileUri).nodup_iff.mpr h.apart
  balance := by
    rw [handedOut, released]
    exact h.balance.trans (perm.symm.append_left s.released)

/-- A file that is held is given back without a throw, once. -/
theorem release_spec {s : FileFetching} {unbegun unbegun' owners : List FileRequest}
    {request : FileRequest} (h : Books s unbegun (request :: owners))
    (fewer : unbegun' ⊆ unbegun) (held : unbegun' ⊆ owners) :
    (s.release request).1 = true ∧ Books (s.release request).2 unbegun' owners ∧
      Frame (fun _ => False) s (s.release request).2 ∧
      request ∉ (s.release request).2.controller.requesting.keys := by
  have found : request ∈ s.controller.requesting.keys :=
    h.owned.mem_iff.mp List.mem_cons_self
  have left : owners.Perm (s.controller.requesting.erase request).keys := by
    rw [UnorderedMap.keys_erase]
    exact (h.owned.trans (List.perm_cons_erase found)).cons_inv
  have apart := List.nodup_cons.mp (List.map_cons ▸ h.apart)
  rw [release, StorageController.initiate_revert found]
  refine ⟨rfl, ⟨left, ?_, ?_, apart.2, ?_⟩, ⟨rfl, rfl, rfl, rfl, rfl, fun _ => .inl⟩, ?_⟩
  · intro other waits
    have differ : other ≠ request := by
      rintro rfl
      exact apart.1 (List.mem_map_of_mem (held waits))
    exact (UnorderedMap.find?_erase_ne _ differ).trans (h.waits other (fewer waits))
  · intro other own
    exact h.queued other (List.mem_cons_of_mem request own)
  · rw [List.append_assoc]
    exact h.balance
  · rw [UnorderedMap.keys_erase]
    exact s.controller.requesting.distinct.not_mem_erase

/-- A file that was given back can be popped, and no other file goes with it. -/
theorem pop_spec {s : FileFetching} {unbegun owners : List FileRequest} {request : FileRequest}
    (h : Books s unbegun owners) (apart : request.fileUri ∉ owners.map FileRequest.fileUri)
    (released : request ∉ s.controller.requesting.keys)
    (queued : request.fileUri ∈ s.controller.map) :
    (s.pop request).1 = true ∧ Books (s.pop request).2 unbegun owners ∧
      Frame (fun fileUri => fileUri = request.fileUri) s (s.pop request).2 := by
  rw [pop, StorageController.pop_ok released queued]
  refine ⟨rfl, ⟨?_, ?_, ?_, h.apart, h.balance⟩, ⟨rfl, rfl, rfl, rfl, rfl, ?_⟩⟩
  · rw [StorageController.popped_requesting]
    exact h.owned
  · intro other waits
    rw [StorageController.popped_requesting]
    exact h.waits other waits
  · intro other own
    rcases StorageController.popped_stays request (h.queued other own) with
      stays | gone
    · exact stays
    · exact absurd (gone ▸ List.mem_map_of_mem own) apart
  · intro fileUri found
    exact StorageController.popped_stays request found

theorem releaseAll_spec {unbegun unbegun' owners : List FileRequest}
    (requests : List FileRequest) {s : FileFetching}
    (h : Books s unbegun (requests ++ owners)) (fewer : unbegun' ⊆ unbegun)
    (held : unbegun' ⊆ owners) :
    Books (s.releaseAll requests) unbegun' owners ∧
      Frame (fun _ => False) s (s.releaseAll requests) := by
  induction requests generalizing s unbegun with
  | nil => exact ⟨h.of_perm rfl rfl rfl (List.Perm.refl owners) fewer, Frame.refl _ s⟩
  | cons request rest ih =>
      obtain ⟨returned, books, frame, _⟩ :=
        release_spec h fewer (List.Subset.trans held (List.subset_append_right rest owners))
      obtain ⟨done, frames⟩ := ih books (List.Subset.refl unbegun')
      have run : s.releaseAll (request :: rest) =
          (s.release request).2.releaseAll rest := by
        rw [releaseAll]
        exact if_pos returned
      rw [run]
      exact ⟨done, frame.trans frames⟩

/-- The loop gives every file back, and pops some. -/
theorem broadcastLoop_spec {unbegun unbegun' owners : List FileRequest}
    (broadcasts : String → Bool) (requests : List FileRequest) {s : FileFetching}
    (h : Books s unbegun (requests ++ owners)) (fewer : unbegun' ⊆ unbegun)
    (held : unbegun' ⊆ owners) :
    Books (s.broadcastLoop broadcasts requests) unbegun' owners ∧
      Frame (fun fileUri => ∃ request ∈ requests, request.fileUri = fileUri) s
        (s.broadcastLoop broadcasts requests) := by
  induction requests generalizing s unbegun with
  | nil => exact ⟨h.of_perm rfl rfl rfl (List.Perm.refl owners) fewer, Frame.refl _ s⟩
  | cons request rest ih =>
      by_cases sends : broadcasts request.fileUri = true
      · obtain ⟨returned, books, frame, released⟩ :=
          release_spec h fewer (List.Subset.trans held (List.subset_append_right rest owners))
        have queued : request.fileUri ∈ (s.release request).2.controller.map :=
          (frame.stays _ (h.queued request List.mem_cons_self)).resolve_right id
        have apart := (List.nodup_cons.mp (List.map_cons ▸ h.apart)).1
        obtain ⟨popped, books, frame'⟩ := pop_spec books apart released queued
        obtain ⟨done, frames⟩ := ih books (List.Subset.refl unbegun')
        have run : s.broadcastLoop broadcasts (request :: rest) =
            ((s.release request).2.pop request).2.broadcastLoop broadcasts rest := by
          rw [broadcastLoop, if_pos sends]
          exact (if_pos returned).trans (if_pos popped)
        rw [run]
        refine ⟨done, (frame.mono ?_).trans ((frame'.mono ?_).trans (frames.mono ?_))⟩
        · intro fileUri gone
          exact gone.elim
        · rintro fileUri rfl
          exact ⟨request, List.mem_cons_self, rfl⟩
        · rintro fileUri ⟨other, found, same⟩
          exact ⟨other, List.mem_cons_of_mem request found, same⟩
      · rw [broadcastLoop, if_neg sends]
        obtain ⟨done, frames⟩ := releaseAll_spec (request :: rest) h fewer held
        exact ⟨done, frames.mono fun _ gone => gone.elim⟩

/-- The files of every session are booked, and a session holds its file until it is
completed. -/
structure Sound (s : FileFetching) : Prop where
  books : Books s s.unbegun s.owners
  holds : ∀ session ∈ s.requests, session.needToRevertInitiate = !session.completed
  expects : ∀ session ∈ s.requests, session.expected = true → session.completed = false

theorem sound_start : start.Sound := by
  refine ⟨⟨List.Perm.refl _, ?_, ?_, List.nodup_nil, List.Perm.refl _⟩, ?_, ?_⟩
  all_goals
    intro request found
    cases found

/-- What a step that goes well does. -/
structure Kept (left : String → Prop) (s after : FileFetching) : Prop where
  sound : after.Sound
  thrown : after.thrown = s.thrown
  batch : after.handedOut ≠ s.handedOut → s.handedOut.Perm s.released
  stays : ∀ fileUri ∈ s.controller.map, fileUri ∈ after.controller.map ∨ left fileUri

theorem Sound.kept {s : FileFetching} (h : s.Sound) (left : String → Prop) : Kept left s s :=
  ⟨h, rfl, fun differ => absurd rfl differ, fun _ => .inl⟩

theorem waiting_subset_held (session : RequestFileSession) : waiting session ⊆ held session := by
  unfold waiting
  split_ifs
  · exact List.nil_subset _
  · exact List.Subset.refl _

theorem unbegun_subset_owners (s : FileFetching) : s.unbegun ⊆ s.owners := by
  intro request found
  rcases List.mem_append.mp found with found | found
  · exact List.mem_append_left _ (List.mem_append_left _ found)
  · obtain ⟨session, has, waits⟩ := List.mem_flatMap.mp found
    have own : request ∈ s.requests.flatMap held :=
      List.mem_flatMap.mpr ⟨session, has, waiting_subset_held session waits⟩
    exact List.mem_append_left _ (List.mem_append_right _ own)

/-- A state reached within a frame, with the books of where the frame began. -/
theorem Frame.kept {left : String → Prop} {s mid after : FileFetching}
    (frame : Frame left mid after) (books : Books after mid.unbegun mid.owners)
    (holds : ∀ session ∈ mid.requests, session.needToRevertInitiate = !session.completed)
    (expects : ∀ session ∈ mid.requests, session.expected = true → session.completed = false)
    (thrown : mid.thrown = s.thrown) (handedOut : mid.handedOut = s.handedOut)
    (map : mid.controller.map = s.controller.map) : Kept left s after := by
  have same : after.unbegun = mid.unbegun ∧ after.owners = mid.owners := by
    unfold FileFetching.unbegun FileFetching.owners
    rw [frame.listings, frame.requests, frame.saves]
    exact ⟨rfl, rfl⟩
  refine ⟨⟨?_, ?_, ?_⟩, frame.thrown.trans thrown, ?_, ?_⟩
  · rw [same.1, same.2]
    exact books
  · rw [frame.requests]
    exact holds
  · rw [frame.requests]
    exact expects
  · intro differ
    exact absurd (frame.handedOut.trans handedOut) differ
  · rw [← map]
    exact frame.stays

theorem perm_of_getElem? {α : Type*} {xs : List α} {index : ℕ} {x : α}
    (found : xs[index]? = some x) : xs.Perm (x :: xs.eraseIdx index) := by
  obtain ⟨bound, rfl⟩ := List.getElem?_eq_some_iff.mp found
  exact (List.getElem_cons_eraseIdx_perm bound).symm

theorem set_perm_of_getElem? {α : Type*} {xs : List α} {index : ℕ} {x : α}
    (found : xs[index]? = some x) (y : α) :
    (xs.set index y).Perm (y :: xs.eraseIdx index) :=
  List.set_perm_cons_eraseIdx (List.getElem?_eq_some_iff.mp found).1 y

theorem owners_perm {s : FileFetching} {session : RequestFileSession}
    {rest : List RequestFileSession} (perm : s.requests.Perm (session :: rest)) :
    s.owners.Perm (held session ++ { s with requests := rest }.owners) := by
  have requests := perm.flatMap_right held
  rw [List.perm_iff_count] at requests ⊢
  intro request
  have count := requests request
  simp only [owners, List.flatMap_cons, List.count_append] at count ⊢
  omega

theorem unbegun_subset {s : FileFetching} {session : RequestFileSession}
    {rest requests : List RequestFileSession} (perm : s.requests.Perm (session :: rest))
    (only : ∀ other ∈ requests, waiting other ⊆ waiting session ∨ other ∈ rest) :
    { s with requests := requests }.unbegun ⊆ s.unbegun := by
  intro request found
  rcases List.mem_append.mp found with found | found
  · exact List.mem_append_left _ found
  · obtain ⟨other, has, waits⟩ := List.mem_flatMap.mp found
    apply List.mem_append_right
    rcases only other has with fewer | stays
    · exact List.mem_flatMap.mpr ⟨session, perm.mem_iff.mpr List.mem_cons_self, fewer waits⟩
    · exact List.mem_flatMap.mpr
        ⟨other, perm.mem_iff.mpr (List.mem_cons_of_mem session stays), waits⟩

theorem kept_destroy {s : FileFetching} (h : s.Sound) (index : ℕ) (left : String → Prop) :
    Kept left s (s.destroy index) := by
  unfold destroy
  cases found : s.requests[index]? with
  | none => exact h.kept left
  | some session =>
      have perm := perm_of_getElem? found
      have owned := owners_perm perm
      have fewer : { s with requests := s.requests.eraseIdx index }.unbegun ⊆ s.unbegun :=
        unbegun_subset perm fun other has => .inr has
      have among : ∀ other ∈ s.requests.eraseIdx index, other ∈ s.requests :=
        fun other has => perm.mem_iff.mpr (List.mem_cons_of_mem session has)
      have holds := fun other has => h.holds other (among other has)
      have expects := fun other has => h.expects other (among other has)
      dsimp only
      by_cases holder : session.needToRevertInitiate = true
      · rw [if_pos holder]
        rw [held, if_pos holder] at owned
        have books : Books { s with requests := s.requests.eraseIdx index } s.unbegun _ :=
          h.books.of_perm rfl rfl rfl owned.symm (List.Subset.refl _)
        obtain ⟨_, books, frame, _⟩ := release_spec books fewer (unbegun_subset_owners _)
        exact (frame.mono fun _ gone => gone.elim).kept books holds expects rfl rfl rfl
      · rw [if_neg holder]
        rw [held, if_neg holder] at owned
        exact (Frame.refl left _).kept (h.books.of_perm rfl rfl rfl owned.symm fewer) holds
          expects rfl rfl rfl

theorem held_of_expects {s : FileFetching} (h : s.Sound) {session : RequestFileSession}
    (has : session ∈ s.requests) (active : session.completed = false) :
    held session = [session.request] := by
  rw [held, if_pos]
  rw [h.holds session has, active]
  rfl

theorem sessions_set {s : FileFetching} (h : s.Sound) (index : ℕ) (after : RequestFileSession)
    (holds : after.needToRevertInitiate = !after.completed)
    (expects : after.expected = true → after.completed = false) :
    (∀ other ∈ s.requests.set index after, other.needToRevertInitiate = !other.completed) ∧
      ∀ other ∈ s.requests.set index after, other.expected = true → other.completed = false := by
  have cases : ∀ other ∈ s.requests.set index after, other = after ∨ other ∈ s.requests := by
    intro other has
    exact (List.mem_or_eq_of_mem_set has).symm
  constructor
  · intro other has
    rcases cases other has with rfl | has
    · exact holds
    · exact h.holds other has
  · intro other has
    rcases cases other has with rfl | has
    · exact expects
    · exact h.expects other has

theorem unbegun_set_subset {s : FileFetching} {index : ℕ} {session after : RequestFileSession}
    (found : s.requests[index]? = some session) (fewer : waiting after ⊆ waiting session) :
    { s with requests := s.requests.set index after }.unbegun ⊆ s.unbegun := by
  apply unbegun_subset (perm_of_getElem? found)
  intro other has
  rcases List.mem_cons.mp ((set_perm_of_getElem? found after).mem_iff.mp has) with rfl | has
  · exact .inl fewer
  · exact .inr has

theorem kept_missing {s : FileFetching} (h : s.Sound) (index : ℕ) (uri : String) :
    Kept (fun fileUri => ∃ session, s.requests[index]? = some session ∧
      session.request.fileUri = fileUri ∧ uri = fileUri) s (s.missing index uri) := by
  cases found : s.requests[index]? with
  | none =>
      rw [missing, found]
      exact h.kept _
  | some session =>
      by_cases meant : session.completed = false ∧ uri = session.request.fileUri
      · obtain ⟨active, rfl⟩ := meant
        let done : RequestFileSession :=
          { session with needToRevertInitiate := false, completed := true, expected := false }
        let mid := { s with requests := s.requests.set index done }
        have owned : s.owners.Perm (session.request :: mid.owners) := by
          have before := owners_perm (perm_of_getElem? found)
          rw [held_of_expects h (List.mem_of_getElem? found) active] at before
          have after := owners_perm (s := mid) (set_perm_of_getElem? found done)
          exact before.trans (after.symm.cons session.request)
        have fewer : mid.unbegun ⊆ s.unbegun := by
          apply unbegun_set_subset found
          rw [waiting]
          split_ifs
          · exact List.nil_subset _
          · exact List.nil_subset _
        have start := h.books.of_perm rfl rfl rfl owned.symm (List.Subset.refl _)
        have queued := start.queued session.request List.mem_cons_self
        have apart := (List.nodup_cons.mp (List.map_cons ▸ start.apart)).1
        obtain ⟨returned, books, frame, released⟩ :=
          release_spec start fewer (unbegun_subset_owners mid)
        let next := { (s.release session.request).2 with
          requests := (s.release session.request).2.requests.set index
            { session with needToRevertInitiate := false } }
        have books : Books next mid.unbegun mid.owners :=
          books.of_perm rfl rfl rfl (List.Perm.refl _) (List.Subset.refl _)
        obtain ⟨popped, books, frame'⟩ := pop_spec books apart released
          ((frame.stays _ queued).resolve_right id)
        obtain ⟨holds, expects⟩ := sessions_set h index done rfl
          (by simp [done])
        have run : s.missing index session.request.fileUri =
            { (next.pop session.request).2 with
              requests := (next.pop session.request).2.requests.set index done } := by
          rw [missing, found]
          refine Eq.trans (if_pos ?_) ((if_pos returned).trans (if_pos popped))
          exact ⟨active, rfl⟩
        rw [run]
        let final := { (next.pop session.request).2 with
          requests := (next.pop session.request).2.requests.set index done }
        have last : Books final mid.unbegun mid.owners :=
          books.of_perm rfl rfl rfl (List.Perm.refl _) (List.Subset.refl _)
        have requests : final.requests = mid.requests := by
          change (next.pop session.request).2.requests.set index done = _
          rw [frame'.requests]
          change ((s.release session.request).2.requests.set index _).set index done = _
          rw [List.set_set, frame.requests]
        have reached : Frame (fun fileUri => ∃ other, some session = some other ∧
            other.request.fileUri = fileUri ∧ session.request.fileUri = fileUri) mid final := by
          refine ⟨frame'.listings.trans frame.listings, requests, frame'.saves.trans frame.saves,
            frame'.handedOut.trans frame.handedOut, frame'.thrown.trans frame.thrown, ?_⟩
          intro fileUri has
          have has := (frame.stays fileUri has).resolve_right id
          rcases frame'.stays fileUri has with stays | rfl
          · exact .inl stays
          · exact .inr ⟨session, rfl, rfl, rfl⟩
        exact reached.kept last holds expects rfl rfl rfl
      · have run : s.missing index uri = s := by
          rw [missing, found]
          exact if_neg meant
        rw [run]
        exact h.kept _

/-- The session of a file passes it on to the session that saves it. -/
theorem kept_fetched {s : FileFetching} (h : s.Sound) (index : ℕ) (verified : Bool)
    (left : String → Prop) : Kept left s (s.fetched index verified true) := by
  cases found : s.requests[index]? with
  | none =>
      rw [fetched, found]
      exact h.kept left
  | some session =>
      by_cases meant : session.expected = true ∧ verified = true
      · let done : RequestFileSession :=
          { session with needToRevertInitiate := false, completed := true, expected := false }
        let mid := { s with
          requests := s.requests.set index done
          saves := s.saves ++ [session.request] }
        have run : s.fetched index verified true = mid := by
          rw [fetched, found]
          exact (if_pos meant).trans (if_pos rfl)
        have has := List.mem_of_getElem? found
        have owned : mid.owners.Perm s.owners := by
          have before := owners_perm (perm_of_getElem? found)
          rw [held_of_expects h has (h.expects session has meant.1)] at before
          have after := owners_perm (s := mid) (set_perm_of_getElem? found done)
          rw [List.perm_iff_count] at before after ⊢
          intro request
          have before := before request
          have after := after request
          simp only [owners, held, mid, done, List.count_append] at before after ⊢
          simp at before after ⊢
          omega
        have fewer : mid.unbegun ⊆ s.unbegun := by
          refine unbegun_set_subset found ?_
          rw [waiting]
          split_ifs
          · exact List.nil_subset _
          · exact List.nil_subset _
        obtain ⟨holds, expects⟩ := sessions_set h index done rfl
          (by simp [done])
        rw [run]
        exact (Frame.refl left mid).kept (h.books.of_perm rfl rfl rfl owned fewer) holds expects
          rfl rfl rfl
      · have run : s.fetched index verified true = s := by
          rw [fetched, found]
          exact if_neg meant
        rw [run]
        exact h.kept left

theorem nodup_owners {s : FileFetching} (h : s.Sound) : s.owners.Nodup :=
  h.books.apart.of_map _

/-- The session of a file begins. -/
theorem kept_initiate {s : FileFetching} (h : s.Sound) (index : ℕ) (sent : Bool)
    (left : String → Prop) : Kept left s (s.initiate index sent) := by
  cases found : s.requests[index]? with
  | none =>
      rw [initiate, found]
      exact h.kept left
  | some session =>
      by_cases idle : session.initiated = true ∨ session.completed = true
      · have run : s.initiate index sent = s := by
          rw [initiate, found]
          exact if_pos idle
        rw [run]
        exact h.kept left
      · rw [not_or, Bool.not_eq_true, Bool.not_eq_true] at idle
        have has := List.mem_of_getElem? found
        have holds := held_of_expects h has idle.2
        let begun : RequestFileSession := { session with initiated := true, expected := sent }
        let after := { s with
          controller.requesting := s.controller.requesting.modify session.request fun _ => true
          requests := s.requests.set index begun }
        have waits : s.controller.requesting.find? session.request = some false := by
          apply h.books.waits
          apply List.mem_append_right
          refine List.mem_flatMap.mpr ⟨session, has, ?_⟩
          rw [waiting, idle.1, holds]
          exact List.mem_cons_self
        have run : s.initiate index sent = after := by
          rw [initiate, found]
          refine (if_neg (by simp [idle])).trans ?_
          rw [StorageController.initiate_check waits]
        have owned : after.owners.Perm s.owners := by
          have before := owners_perm (perm_of_getElem? found)
          have now := owners_perm (s := after) (set_perm_of_getElem? found begun)
          exact now.trans before.symm
        have fewer : after.unbegun ⊆ s.unbegun :=
          unbegun_set_subset found (List.nil_subset _)
        have gone : session.request ∉ after.unbegun := by
          intro waits
          have once := (owners_perm (perm_of_getElem? found)).nodup_iff.mp (nodup_owners h)
          rw [holds, List.singleton_append, List.nodup_cons] at once
          apply once.1
          rcases List.mem_append.mp waits with waits | waits
          · exact List.mem_append_left _ (List.mem_append_left _ waits)
          · obtain ⟨other, has, waits⟩ := List.mem_flatMap.mp waits
            rcases List.mem_cons.mp ((set_perm_of_getElem? found begun).mem_iff.mp has) with
              rfl | has
            · cases waits
            · have own := List.mem_flatMap.mpr ⟨other, has, waiting_subset_held other waits⟩
              exact List.mem_append_left _ (List.mem_append_right _ own)
        obtain ⟨holds, expects⟩ := sessions_set h index begun
          (h.holds session has) fun _ => idle.2
        rw [run]
        refine ⟨⟨⟨?_, ?_, ?_, ?_, ?_⟩, holds, expects⟩, rfl, ?_, ?_⟩
        · rw [UnorderedMap.keys_modify]
          exact owned.trans h.books.owned
        · intro request waits
          rw [UnorderedMap.find?_modify, if_neg]
          · exact h.books.waits request (fewer waits)
          · rintro rfl
            exact gone waits
        · intro request own
          exact h.books.queued request (owned.mem_iff.mp own)
        · exact (owned.map FileRequest.fileUri).nodup_iff.mpr h.books.apart
        · exact h.books.balance.trans (owned.symm.append_left s.released)
        · intro differ
          exact absurd rfl differ
        · intro fileUri has
          exact .inl has

theorem kept_saved {s : FileFetching} (h : s.Sound) (index : ℕ) (package : StoragePackage)
    (broadcasts : Bool) :
    Kept (fun fileUri => ∃ request, s.saves[index]? = some request ∧
      request.fileUri = fileUri ∧ isStored fileUri package = .ok true) s
      (s.saved index package broadcasts) := by
  cases found : s.saves[index]? with
  | none =>
      rw [saved, found]
      exact h.kept _
  | some request =>
      let mid := { s with saves := s.saves.eraseIdx index }
      have owned : s.owners.Perm (request :: mid.owners) := by
        have perm := perm_of_getElem? found
        rw [List.perm_iff_count] at perm ⊢
        intro other
        have count := perm other
        simp only [owners, mid, List.count_append, List.count_cons] at count ⊢
        omega
      have start : Books mid mid.unbegun (request :: mid.owners) :=
        h.books.of_perm rfl rfl rfl owned.symm (List.Subset.refl _)
      have queued := start.queued request List.mem_cons_self
      have apart := (List.nodup_cons.mp (List.map_cons ▸ start.apart)).1
      obtain ⟨returned, books, frame, released⟩ :=
        release_spec start (List.Subset.refl _) (unbegun_subset_owners mid)
      by_cases stored : isStored request.fileUri package = .ok true ∧ broadcasts = true
      · obtain ⟨_, books, frame'⟩ := pop_spec books apart released
          ((frame.stays _ queued).resolve_right id)
        have run : s.saved index package broadcasts =
            ((mid.release request).2.pop request).2 := by
          rw [saved, found]
          exact if_pos ⟨returned, stored⟩
        rw [run]
        refine ((frame.mono fun _ gone => gone.elim).trans (frame'.mono ?_)).kept books h.holds
          h.expects rfl rfl rfl
        rintro fileUri rfl
        exact ⟨request, rfl, rfl, stored.1⟩
      · have run : s.saved index package broadcasts = (mid.release request).2 := by
          rw [saved, found]
          exact if_neg fun all => stored all.2
        rw [run]
        exact (frame.mono fun _ gone => gone.elim).kept books h.holds h.expects rfl rfl rfl

theorem owners_listing {s : FileFetching} {index : ℕ} {batch : List FileRequest}
    (found : s.listings[index]? = some batch) :
    s.owners.Perm (batch ++ { s with listings := s.listings.eraseIdx index }.owners) := by
  have perm := (perm_of_getElem? found).flatten
  rw [List.perm_iff_count] at perm ⊢
  intro request
  have count := perm request
  simp only [owners, List.flatten_cons, List.count_append] at count ⊢
  omega

theorem unbegun_listing_subset {s : FileFetching} {index : ℕ} {batch : List FileRequest}
    (found : s.listings[index]? = some batch) :
    { s with listings := s.listings.eraseIdx index }.unbegun ⊆ s.unbegun := by
  intro request has
  rcases List.mem_append.mp has with has | has
  · refine List.mem_append_left _ ((perm_of_getElem? found).flatten.mem_iff.mpr ?_)
    exact List.mem_append_right batch has
  · exact List.mem_append_right _ has

theorem kept_unlisted {s : FileFetching} (h : s.Sound) (index : ℕ) (left : String → Prop) :
    Kept left s (s.unlisted index) := by
  cases found : s.listings[index]? with
  | none =>
      rw [unlisted, found]
      exact h.kept left
  | some batch =>
      let mid := { s with listings := s.listings.eraseIdx index }
      have run : s.unlisted index = mid.releaseAll batch := by
        rw [unlisted, found]
      have start : Books mid s.unbegun (batch ++ mid.owners) :=
        h.books.of_perm rfl rfl rfl (owners_listing found).symm (List.Subset.refl _)
      obtain ⟨books, frame⟩ := releaseAll_spec batch start (unbegun_listing_subset found)
        (unbegun_subset_owners mid)
      rw [run]
      exact (frame.mono fun _ gone => gone.elim).kept books h.holds h.expects rfl rfl rfl

theorem flatMap_new (requests : List FileRequest) :
    (requests.map RequestFileSession.new).flatMap held = requests ∧
      (requests.map RequestFileSession.new).flatMap waiting = requests := by
  induction requests with
  | nil => exact ⟨rfl, rfl⟩
  | cons request rest ih =>
      rw [List.map_cons, List.flatMap_cons, List.flatMap_cons, ih.1, ih.2]
      exact ⟨rfl, rfl⟩

theorem kept_listed {s : FileFetching} (h : s.Sound) (index : ℕ) (fileUris : List String)
    (taken : String → Bool) (throws : Bool) (broadcasts : String → Bool) :
    Kept (fun fileUri => fileUri ∈ fileUris ∧ ∃ batch, s.listings[index]? = some batch ∧
      ∃ request ∈ batch, request.fileUri = fileUri) s
      (s.listed index fileUris taken throws broadcasts) := by
  cases found : s.listings[index]? with
  | none =>
      rw [listed, found]
      exact h.kept _
  | some batch =>
      let missing := batch.filter fun request => request.fileUri ∉ fileUris
      let present := batch.filter fun request => request.fileUri ∈ fileUris
      let asked := missing.filter fun request => taken request.channelAddress
      let refused := missing.filter fun request => !taken request.channelAddress
      let mid := { s with
        listings := s.listings.eraseIdx index
        requests := s.requests ++ asked.map RequestFileSession.new }
      have batches : batch.Perm (refused ++ (present ++ asked)) := by
        have first := List.filter_append_perm (fun request : FileRequest =>
          decide (request.fileUri ∈ fileUris)) batch
        have next := List.filter_append_perm (fun request : FileRequest =>
          taken request.channelAddress) missing
        have same : missing = batch.filter fun request => !decide (request.fileUri ∈ fileUris) :=
          List.filter_congr fun _ _ => decide_not
        rw [← same] at first
        refine first.symm.trans ((next.symm.append_left present).trans ?_)
        rw [List.perm_iff_count]
        intro request
        simp only [List.count_append, asked, refused, present]
        omega
      have owned : s.owners.Perm (refused ++ (present ++ mid.owners)) := by
        have apart := owners_listing found
        rw [List.perm_iff_count] at apart batches ⊢
        intro request
        have count := apart request
        have parts := batches request
        simp only [owners, mid, List.flatMap_append, flatMap_new, List.count_append]
          at count parts ⊢
        omega
      have fewer : mid.unbegun ⊆ s.unbegun := by
        intro request has
        rw [FileFetching.unbegun, List.flatMap_append, (flatMap_new asked).2] at has
        rcases List.mem_append.mp has with has | has
        · exact unbegun_listing_subset found (List.mem_append_left _ has)
        · rcases List.mem_append.mp has with has | has
          · exact List.mem_append_right _ has
          · have among : request ∈ batch :=
              List.mem_of_mem_filter (List.mem_of_mem_filter has)
            exact List.mem_append_left _
              (List.mem_flatten.mpr ⟨batch, List.mem_of_getElem? found, among⟩)
      have fresh : ∀ session ∈ mid.requests, session.needToRevertInitiate = !session.completed ∧
          (session.expected = true → session.completed = false) := by
        intro session has
        rcases List.mem_append.mp has with has | has
        · exact ⟨h.holds session has, h.expects session has⟩
        · obtain ⟨request, _, rfl⟩ := List.mem_map.mp has
          exact ⟨rfl, fun _ => rfl⟩
      have start : Books mid s.unbegun (refused ++ (present ++ mid.owners)) :=
        h.books.of_perm rfl rfl rfl owned.symm (List.Subset.refl _)
      obtain ⟨books, frame⟩ := releaseAll_spec refused start fewer
        (List.Subset.trans (unbegun_subset_owners mid) (List.subset_append_right present _))
      have run : s.listed index fileUris taken throws broadcasts =
          if throws then (mid.releaseAll refused).releaseAll present
          else (mid.releaseAll refused).broadcastLoop broadcasts present := by
        rw [listed, found]
      rw [run]
      have none : ∀ fileUri, False → fileUri ∈ fileUris ∧ ∃ batch',
          some batch = some batch' ∧ ∃ request ∈ batch', request.fileUri = fileUri :=
        fun _ gone => gone.elim
      cases throws with
      | true =>
          obtain ⟨books, frame'⟩ := releaseAll_spec present books (List.Subset.refl _)
            (unbegun_subset_owners mid)
          exact ((frame.mono none).trans (frame'.mono none)).kept books
            (fun session has => (fresh session has).1) (fun session has => (fresh session has).2)
            rfl rfl rfl
      | false =>
          obtain ⟨books, frame'⟩ := broadcastLoop_spec broadcasts present books
            (List.Subset.refl _) (unbegun_subset_owners mid)
          refine ((frame.mono none).trans (frame'.mono ?_)).kept books
            (fun session has => (fresh session has).1) (fun session has => (fresh session has).2)
            rfl rfl rfl
          rintro fileUri ⟨request, has, rfl⟩
          have listed := List.mem_filter.mp has
          exact ⟨of_decide_eq_true listed.2, batch, rfl, request, listed.1, rfl⟩

/-- A new batch is handed out when everything was given back. -/
theorem kept_collect {s : FileFetching} (h : s.Sound) (resolvedChannels : List String)
    (files batch : List FileRequest) :
    Kept (s.controller.Evictable resolvedChannels) s
      (s.collect resolvedChannels files batch) := by
  by_cases orders : files.Perm s.controller.queue ∧
      batch.Perm (s.controller.getFileRequests resolvedChannels files).1
  · rcases StorageController.getFileRequests_cases resolvedChannels orders.1 with busy | out
    · have run : s.collect resolvedChannels files batch = s := by
        have perm := orders.2
        rw [busy] at perm
        rw [collect, busy]
        exact (if_pos ⟨orders.1, perm⟩).trans (if_pos perm.eq_nil)
      rw [run]
      exact h.kept _
    · have none : s.owners = [] := List.Perm.eq_nil (out.empty ▸ h.books.owned)
      have returned : s.handedOut.Perm s.released := by
        have balance := h.books.balance
        rwa [none, List.append_nil] at balance
      have parts : (s.listings.flatten = [] ∧ s.requests.flatMap held = []) ∧ s.saves = [] := by
        rwa [owners, List.append_eq_nil_iff, List.append_eq_nil_iff] at none
      -- with or without a session that lists the files, the batch is what is owned then
      let after := s.collect resolvedChannels files batch
      have shape : after.controller = (s.controller.getFileRequests resolvedChannels files).2 ∧
          after.requests = s.requests ∧ after.released = s.released ∧
          after.thrown = s.thrown ∧ after.saves = s.saves ∧
          after.handedOut = s.handedOut ++ batch ∧
          after.listings.flatten = batch := by
        by_cases idle : batch = []
        · have run : after = { s with
              controller := (s.controller.getFileRequests resolvedChannels files).2 } :=
            (if_pos orders).trans (if_pos idle)
          rw [run, idle, List.append_nil]
          exact ⟨rfl, rfl, rfl, rfl, rfl, rfl, parts.1.1⟩
        · have run : after = { s with
              controller := (s.controller.getFileRequests resolvedChannels files).2
              listings := s.listings ++ [batch]
              handedOut := s.handedOut ++ batch } :=
            (if_pos orders).trans (if_neg idle)
          rw [run]
          refine ⟨rfl, rfl, rfl, rfl, rfl, rfl, ?_⟩
          rw [List.flatten_append, parts.1.1]
          simp
      obtain ⟨controller, requests, released, thrown, saves, handedOut, listings⟩ := shape
      have owned : after.owners = batch := by
        rw [owners, listings, requests, saves, parts.1.2, parts.2]
        simp
      have own := orders.2
      refine ⟨⟨⟨?_, ?_, ?_, ?_, ?_⟩, ?_, ?_⟩, thrown, fun _ => returned, ?_⟩
      · rw [owned, controller, out.keys]
        exact own
      · intro request waits
        rw [controller]
        apply out.waits
        rw [← own.mem_iff, ← owned]
        exact unbegun_subset_owners after waits
      · intro request has
        rw [controller]
        exact out.queued request (own.mem_iff.mp (owned ▸ has))
      · rw [owned]
        exact (own.map FileRequest.fileUri).nodup_iff.mpr out.apart
      · rw [owned, handedOut, released]
        exact returned.append_right batch
      · rw [requests]
        exact h.holds
      · rw [requests]
        exact h.expects
      · rw [controller]
        exact out.stays
  · have run : s.collect resolvedChannels files batch = s := if_neg orders
    rw [run]
    exact h.kept _

theorem enqueue_stays (overwrites : Bool) (request : FileRequest) {c : StorageController}
    {fileUri : String} (has : fileUri ∈ c.map) :
    fileUri ∈ (c.enqueue overwrites request).map := by
  cases overwrites with
  | true => exact Std.ExtTreeMap.mem_insert.mpr (.inr has)
  | false => exact Std.ExtTreeMap.mem_insertIfNew.mpr (.inr has)

/-- What only adds to the queue, or only takes from it what nobody fetches. -/
theorem kept_of_queue {s : FileFetching} (h : s.Sound) {left : String → Prop}
    (controller : StorageController) (requesting : controller.requesting = s.controller.requesting)
    (stays : ∀ fileUri ∈ s.controller.map, fileUri ∈ controller.map) :
    Kept left s { s with controller } := by
  refine ⟨⟨⟨?_, ?_, ?_, h.books.apart, h.books.balance⟩, h.holds, h.expects⟩, rfl, ?_, ?_⟩
  · rw [requesting]
    exact h.books.owned
  · rw [requesting]
    exact h.books.waits
  · intro request own
    exact stays _ (h.books.queued request own)
  · intro differ
    exact absurd rfl differ
  · intro fileUri has
    exact .inl (stays fileUri has)

/-- The contents of a block only add to the queue, until it is discarded. -/
theorem enqueue_all (overwrites : Bool) (requests : List FileRequest) (c : StorageController) :
    (requests.foldl (fun c request => c.enqueue overwrites request) c).requesting =
        c.requesting ∧
      (requests.foldl (fun c request => c.enqueue overwrites request) c).committed =
        c.committed ∧
      ∀ fileUri ∈ c.map, fileUri ∈
        (requests.foldl (fun c request => c.enqueue overwrites request) c).map := by
  induction requests generalizing c with
  | nil => exact ⟨rfl, rfl, fun _ has => has⟩
  | cons request rest ih =>
      obtain ⟨requesting, committed, stays⟩ := ih (c.enqueue overwrites request)
      exact ⟨requesting, committed, fun fileUri has =>
        stays fileUri (enqueue_stays overwrites request has)⟩

/-- The ways by which a file may leave the queue: the storage has it, the channel misses it, it
is saved, or it is evicted. -/
def MayLeave (s : FileFetching) (fileUri : String) : FetchEvent → Prop
  | .listed index fileUris _ _ _ => fileUri ∈ fileUris ∧
      ∃ batch, s.listings[index]? = some batch ∧ ∃ request ∈ batch, request.fileUri = fileUri
  | .missing index uri => ∃ session, s.requests[index]? = some session ∧
      session.request.fileUri = fileUri ∧ uri = fileUri
  | .saved index package _ => ∃ request, s.saves[index]? = some request ∧
      request.fileUri = fileUri ∧ isStored fileUri package = .ok true
  | .collect resolvedChannels _ _ => s.controller.Evictable resolvedChannels fileUri
  | _ => False

/-- What the bookkeeping promises of an event. -/
structure Keeps (overwrites : Bool) (s : FileFetching) (event : FetchEvent) : Prop where
  /-- Neither `initiate` nor `pop` throws. -/
  quiet : (s.step overwrites event).thrown = s.thrown
  /-- Each file that is being requested has one owner that is to give it back. -/
  owned : (s.step overwrites event).owners.Perm
    (s.step overwrites event).controller.requesting.keys
  /-- Each file that was handed out was given back once, or has that owner. -/
  balance : (s.step overwrites event).handedOut.Perm
    ((s.step overwrites event).released ++ (s.step overwrites event).owners)
  /-- Files are handed out when all that were handed out before were given back. -/
  batch : (s.step overwrites event).handedOut ≠ s.handedOut → s.handedOut.Perm s.released
  leaves : ∀ fileUri ∈ s.controller.map,
    fileUri ∉ (s.step overwrites event).controller.map → s.MayLeave fileUri event

/-- No block is discarded while a file is queued that was not committed, and the session that
saves a fetched file can be added. -/
def Fit (s : FileFetching) : FetchEvent → Prop
  | .block _ false => ∀ fileUri ∈ s.controller.map, fileUri ∈ s.controller.committed
  | .fetched index true false => ∀ session, s.requests[index]? = some session →
      session.expected = false
  | _ => True

def Always (overwrites : Bool) (P : FileFetching → FetchEvent → Prop) (s : FileFetching) :
    List FetchEvent → Prop
  | [] => True
  | event :: rest => P s event ∧ Always overwrites P (s.step overwrites event) rest

theorem Kept.keeps {overwrites : Bool} {s : FileFetching} {event : FetchEvent}
    (h : Kept (fun fileUri => s.MayLeave fileUri event) s (s.step overwrites event)) :
    (s.step overwrites event).Sound ∧ Keeps overwrites s event := by
  refine ⟨h.sound, h.thrown, h.sound.books.owned, h.sound.books.balance, h.batch, ?_⟩
  intro fileUri has gone
  exact (h.stays fileUri has).resolve_left gone

theorem not_keeps_fetched {overwrites : Bool} {s : FileFetching} (h : s.Sound) {index : ℕ}
    {session : RequestFileSession} (found : s.requests[index]? = some session)
    (expects : session.expected = true) : ¬ Keeps overwrites s (.fetched index true false) := by
  intro keeps
  have has := List.mem_of_getElem? found
  have own : session.request ∈ s.owners := by
    apply (owners_perm (perm_of_getElem? found)).mem_iff.mpr
    rw [held_of_expects h has (h.expects session has expects)]
    exact List.mem_cons_self
  have run : s.fetched index true false = (s.release session.request).2 := by
    rw [fetched, found]
    exact (if_pos ⟨expects, rfl⟩).trans (if_neg Bool.false_ne_true)
  have release := StorageController.initiate_revert (h.books.owned.mem_iff.mp own)
  have balance := keeps.balance
  have before := h.books.balance
  change (s.fetched index true false).handedOut.Perm
    ((s.fetched index true false).released ++ (s.fetched index true false).owners) at balance
  rw [run, FileFetching.release, release] at balance
  have lengths := balance.length_eq.symm.trans before.length_eq
  simp [owners] at lengths

theorem kept_discarded {overwrites : Bool} {s : FileFetching} (h : s.Sound)
    {requests : List FileRequest} (fit : s.Fit (.block requests false))
    (left : String → Prop) : Kept left s (s.step overwrites (.block requests false)) := by
  obtain ⟨requesting, committed, _⟩ := enqueue_all overwrites requests s.controller
  refine kept_of_queue h (StorageController.discard _) requesting ?_
  intro fileUri has
  have stays := fit fileUri has
  rw [← committed] at stays
  exact stays

theorem fit_of_discarded {overwrites : Bool} {s : FileFetching} {requests : List FileRequest}
    (keeps : Keeps overwrites s (.block requests false)) : s.Fit (.block requests false) := by
  intro fileUri has
  by_contra absent
  apply keeps.leaves fileUri has
  have map : (s.step overwrites (.block requests false)).controller.map =
      s.controller.committed := (enqueue_all overwrites requests s.controller).2.1
  rw [map]
  exact absent

/-- A step keeps the books exactly when it is fit, and is sound then. -/
theorem step_keeps_iff (overwrites : Bool) {s : FileFetching} (h : s.Sound)
    (event : FetchEvent) :
    (Keeps overwrites s event ↔ s.Fit event) ∧
      (s.Fit event → (s.step overwrites event).Sound) := by
  have whenever (always : s.Fit event)
      (kept : Kept (fun fileUri => s.MayLeave fileUri event) s (s.step overwrites event)) :
      (Keeps overwrites s event ↔ s.Fit event) ∧
        (s.Fit event → (s.step overwrites event).Sound) :=
    ⟨⟨fun _ => always, fun _ => kept.keeps.2⟩, fun _ => kept.sound⟩
  cases event with
  | enqueue request =>
      exact whenever trivial
        (kept_of_queue h _ rfl fun _ has => enqueue_stays overwrites request has)
  | block requests saved =>
      cases saved with
      | true =>
          obtain ⟨requesting, _, stays⟩ := enqueue_all overwrites requests s.controller
          exact whenever trivial (kept_of_queue h _ requesting stays)
      | false =>
          exact ⟨⟨fit_of_discarded, fun fit => (kept_discarded h fit _).keeps.2⟩,
            fun fit => (kept_discarded h fit fun _ => False).sound⟩
  | collect resolvedChannels files batch =>
      exact whenever trivial (kept_collect h resolvedChannels files batch)
  | listed index fileUris taken throws broadcasts =>
      exact whenever trivial (kept_listed h index fileUris taken throws broadcasts)
  | unlisted index => exact whenever trivial (kept_unlisted h index _)
  | initiate index sent => exact whenever trivial (kept_initiate h index sent _)
  | fetched index verified added =>
      cases added with
      | true =>
          refine whenever ?_ (kept_fetched h index verified _)
          cases verified
          · trivial
          · trivial
      | false =>
          by_cases passes : verified = true ∧ ∃ session, s.requests[index]? = some session ∧
              session.expected = true
          · obtain ⟨rfl, session, found, expects⟩ := passes
            have unfit : ¬ s.Fit (.fetched index true false) := fun fit =>
              Bool.false_ne_true ((fit session found).symm.trans expects)
            exact ⟨iff_of_false (not_keeps_fetched h found expects) unfit,
              fun fit => absurd fit unfit⟩
          · have fit : s.Fit (.fetched index verified false) := by
              cases verified with
              | false => trivial
              | true =>
                  intro session found
                  rw [← Bool.not_eq_true]
                  exact fun expects => passes ⟨rfl, session, found, expects⟩
            have run : s.step overwrites (.fetched index verified false) = s := by
              change s.fetched index verified false = s
              rw [fetched]
              cases found : s.requests[index]? with
              | none => rfl
              | some session =>
                  exact if_neg fun both => passes ⟨both.2, session, found, both.1⟩
            exact whenever fit (run.symm ▸ h.kept _)
  | missing index uri => exact whenever trivial (kept_missing h index uri)
  | destroy index => exact whenever trivial (kept_destroy h index _)
  | saved index package broadcasts =>
      exact whenever trivial (kept_saved h index package broadcasts)

/-- The bookkeeping keeps its promises in a run exactly when every event is fit. -/
theorem keeps_books_iff_fit (overwrites : Bool) (events : List FetchEvent) :
    Always overwrites (Keeps overwrites) start events ↔
      Always overwrites Fit start events := by
  have from_sound : ∀ s : FileFetching, s.Sound →
      (Always overwrites (Keeps overwrites) s events ↔ Always overwrites Fit s events) := by
    induction events with
    | nil => exact fun _ _ => Iff.rfl
    | cons event rest ih =>
        intro s h
        obtain ⟨keeps, sound⟩ := step_keeps_iff overwrites h event
        constructor
        · rintro ⟨first, later⟩
          have fit := keeps.mp first
          exact ⟨fit, (ih _ (sound fit)).mp later⟩
        · rintro ⟨fit, later⟩
          exact ⟨keeps.mpr fit, (ih _ (sound fit)).mpr later⟩
  exact from_sound start sound_start

/-- A command to store a file is not committed: when a block is discarded while the file is
being fetched, the `pop` of the file throws. -/
theorem pop_of_discarded_throws :
    ¬ ∀ (overwrites : Bool) (events : List FetchEvent),
      Always overwrites (Keeps overwrites) start events := by
  intro all
  let request : FileRequest := ⟨"file", "channel"⟩
  have run := all false [.enqueue request, .collect ["channel"] [request] [request],
    .listed 0 [] (fun _ => true) false fun _ => true, .initiate 0 true, .block [] false,
    .missing 0 "file"]
  obtain ⟨_, _, _, _, _, last, _⟩ := run
  exact absurd last.quiet (by decide +kernel)

end FileFetching

end Publiq
