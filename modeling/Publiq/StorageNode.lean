import Publiq.Documents
import Publiq.StorageOrders
import Publiq.StorageSessions

/-! The storage of a node, a process beside it. It keeps files under the hash of their content and
hands them out to clients; a storage does so on the orders that channels sign for it, and tells its
node of each order that it has served. -/
namespace Publiq
open Message Checked

/-- `BlockchainMessage::StorageFile`. -/
structure StorageFile where
  mimeType : String
  data : String
  deriving DecidableEq

/-- What `mesh.pp` and the generated parser compute for files and tokens. -/
class StorageExternals where
  /-- `to_base64`. -/
  toBase64 : String → String
  /-- `from_base64`, of a text that `to_base64` has written. -/
  fromBase64 : String → String
  /-- `SignedStorageOrder::from_string`, of a token in base64. -/
  openOrder : String → Checked SignedStorageOrder

def StorageExternals.ReadsBack [StorageExternals] : Prop :=
  ∀ data, fromBase64 (toBase64 data) = data

/-- `publiqpp::storage`. -/
structure Storage where
  map : UnorderedMap String StorageFile

namespace Storage
variable [Externals] [StorageExternals]

/-- `storage::put`: whether the file is new, its uri, and the storage with it. Whether
`map_loader::insert` replaces a file that is there is left open. -/
def put (overwrites : Bool) (file : StorageFile) (storage : Storage) : Bool × String × Storage :=
  let uri := Externals.hash file.data
  let stored := { file with data := StorageExternals.toBase64 file.data }
  (decide (uri ∉ storage.map.keys), uri,
    ⟨if overwrites then storage.map.assign uri stored else storage.map.insert uri stored⟩)

omit [Externals] in
/-- `storage::get`. -/
def get (uri : String) (storage : Storage) : Option StorageFile :=
  (storage.map.find? uri).map fun file =>
    { file with data := StorageExternals.fromBase64 file.data }

omit [Externals] [StorageExternals] in
/-- `storage::remove`. -/
def remove (uri : String) (storage : Storage) : Bool × Storage :=
  if uri ∈ storage.map.keys then (true, ⟨storage.map.erase uri⟩) else (false, storage)

omit [Externals] [StorageExternals] in
/-- `storage::get_file_uris`. -/
def getFileUris (storage : Storage) : List String := storage.map.keys

def Addressed (storage : Storage) : Prop :=
  ∀ uri file, storage.get uri = some file → Externals.hash file.data = uri

theorem addressed_empty : Addressed ⟨∅⟩ := by
  intro uri file found
  rw [get, UnorderedMap.find?_empty] at found
  cases found

theorem get_put (overwrites : Bool) (file : StorageFile) (storage : Storage) (uri : String) :
    (storage.put overwrites file).2.2.get uri = storage.get uri ∨
      uri = Externals.hash file.data ∧ (storage.put overwrites file).2.2.get uri =
        some { file with
          data := StorageExternals.fromBase64 (StorageExternals.toBase64 file.data) } := by
  unfold put get
  by_cases same : uri = Externals.hash file.data
  · subst same
    cases overwrites with
    | true =>
        refine .inr ⟨rfl, ?_⟩
        simp only [if_true, UnorderedMap.find?_assign, Option.map_some]
    | false =>
        simp only [Bool.false_eq_true, if_false, UnorderedMap.find?_insert_self]
        cases storage.map.find? (Externals.hash file.data) with
        | none => exact .inr ⟨trivial, rfl⟩
        | some old => exact .inl rfl
  · refine .inl ?_
    cases overwrites with
    | true => simp only [if_true, UnorderedMap.find?_assign, if_neg same]
    | false =>
        simp only [Bool.false_eq_true, if_false, UnorderedMap.find?_insert_ne _ _ same]

theorem Addressed.put (reads : StorageExternals.ReadsBack) {storage : Storage}
    (addressed : storage.Addressed) (overwrites : Bool) (file : StorageFile) :
    (storage.put overwrites file).2.2.Addressed := by
  intro uri found hfound
  rcases get_put overwrites file storage uri with h | ⟨rfl, h⟩
  · exact addressed uri found (h ▸ hfound)
  · rw [h, reads] at hfound
    cases hfound
    rfl

theorem Addressed.remove {storage : Storage} (addressed : storage.Addressed) (uri : String) :
    (storage.remove uri).2.Addressed := by
  unfold Storage.remove
  split_ifs with there
  · intro other file found
    by_cases same : other = uri
    · have gone : other ∉ (storage.map.erase uri).keys := by
        rw [same, UnorderedMap.keys_erase]
        exact fun kept => (storage.map.distinct.mem_erase_iff.mp kept).1 rfl
      rw [get, UnorderedMap.find?_eq_none_iff.mpr gone] at found
      cases found
    · rw [get, UnorderedMap.find?_erase_ne _ same] at found
      exact addressed other file found
  · exact addressed

end Storage

/-- What a node asks of its storage. -/
inductive StorageCommand where
  | storageFile (file : StorageFile)
  | storageFileDelete (uri : String)
  | setVerifiedChannels (channelAddresses : List String)
  | fileUrisRequest

inductive StorageRequest where
  | storageFileRequest (uri storageOrderToken : String)
  | storageFileDetails (uri : String)

/-- What a client gets. An exception reaches it as a `RemoteError`. -/
inductive StorageReply where
  | storageFile (file : StorageFile)
  | storageFileDetailsResponse (uri mimeType : String) (size : UInt64)
  | uriError (uri : String) (uriProblemType : UriProblem)
  | remoteError (thrown : Failure)
  deriving DecidableEq

/-- `storage_node_internals`. -/
structure StorageNode where
  config : Config
  storage : Storage
  verifiedChannels : List String

namespace StorageNode

section
variable [Externals] [StorageExternals]

/-- `storage_node::run` for a message of its node: the answer, and what it leaves. -/
def command (overwrites : Bool) (node : StorageNode) :
    StorageCommand → StoragePackage × StorageNode
  | .storageFile file =>
      let (added, uri, storage) := node.storage.put overwrites file
      (if added then .storageFileAddress uri else .uriError uri .duplicate, { node with storage })
  | .storageFileDelete uri =>
      let (removed, storage) := node.storage.remove uri
      (if removed then .done else .uriError uri .missing, { node with storage })
  | .setVerifiedChannels channelAddresses =>
      (.done, { node with verifiedChannels := channelAddresses })
  | .fileUrisRequest => (.fileUris node.storage.getFileUris, node)

theorem addressed_command (reads : StorageExternals.ReadsBack) {node : StorageNode}
    (addressed : node.storage.Addressed) (overwrites : Bool) (command : StorageCommand) :
    (node.command overwrites command).2.storage.Addressed ∧
      (node.command overwrites command).2.config = node.config := by
  cases command with
  | storageFile file => exact ⟨addressed.put reads overwrites file, rfl⟩
  | storageFileDelete uri => exact ⟨addressed.remove uri, rfl⟩
  | setVerifiedChannels channelAddresses => exact ⟨addressed, rfl⟩
  | fileUrisRequest => exact ⟨addressed, rfl⟩

end

variable [OrderExternals] [StorageExternals]

def permits (now : ℤ) (node : StorageNode) (signed : SignedStorageOrder) : Bool :=
  StorageOrder.verifyStorageOrder now signed &&
    signed.order.storageAddress = node.config.publicKey &&
    signed.authorization.address ∈ node.verifiedChannels

/-- The file that a request is about: a storage takes it from the order, and none from an order
that it does not permit. -/
def requestedUri (now : ℤ) (uri storageOrderToken : String) (node : StorageNode) :
    Checked String :=
  if node.config.nodeType = .storage then do
    let signed ← StorageExternals.openOrder storageOrderToken
    pure (if node.permits now signed then signed.order.fileUri else "")
  else pure uri

/-- `storage_node::run` for a `StorageFileRequest`: the reply, and the order that its node is told
to be served. -/
def serveFile (now : ℤ) (uri storageOrderToken : String) (node : StorageNode) :
    Checked (StorageReply × Option String) := do
  let fileUri ← node.requestedUri now uri storageOrderToken
  match if fileUri = "" then none else node.storage.get fileUri with
  | some file =>
      pure (.storageFile file,
        if node.config.nodeType = .storage then some storageOrderToken else none)
  | none => pure (.uriError fileUri .missing, none)

/-- `storage_node::run` for a `StorageFileDetails`. -/
def fileDetails (uri : String) (node : StorageNode) : StorageReply :=
  match node.storage.get uri with
  | some file =>
      .storageFileDetailsResponse uri file.mimeType (UInt64.ofNat file.data.utf8ByteSize)
  | none => .uriError uri .missing

/-- `storage_node::run` for a message of a client. -/
def answer (now : ℤ) (node : StorageNode) : StorageRequest → StorageReply × Option String
  | .storageFileRequest uri storageOrderToken =>
      match node.serveFile now uri storageOrderToken with
      | .ok answered => answered
      | .error thrown => (.remoteError thrown, none)
  | .storageFileDetails uri => (node.fileDetails uri, none)

/-- A file that a client gets has the content that its uri stands for. A storage sends the file of
an order that it permits. -/
theorem answer_file [Externals] {node : StorageNode} (addressed : node.storage.Addressed)
    {now : ℤ} {request : StorageRequest} {file : StorageFile} {told : Option String}
    (h : node.answer now request = (.storageFile file, told)) :
    ∃ uri token, request = .storageFileRequest uri token ∧
      if node.config.nodeType = .storage then told = some token ∧
        ∃ signed, StorageExternals.openOrder token = .ok signed ∧ node.permits now signed = true ∧
          Externals.hash file.data = signed.order.fileUri
      else told = none ∧ Externals.hash file.data = uri := by
  cases request with
  | storageFileRequest uri token =>
      refine ⟨uri, token, rfl, ?_⟩
      simp only [answer] at h
      cases hserve : node.serveFile now uri token with
      | error thrown =>
          rw [hserve] at h
          cases h
      | ok answered =>
          rw [hserve] at h
          obtain rfl : answered = (.storageFile file, told) := h
          obtain ⟨fileUri, huri, hserve⟩ := bind_ok_iff.mp hserve
          split at hserve
          · rename_i stored hget
            have hsent := pure_ok_iff.mp hserve
            rw [Prod.mk.injEq, StorageReply.storageFile.injEq] at hsent
            obtain ⟨rfl, rfl⟩ := hsent
            split_ifs at hget with hempty
            have hhash := addressed fileUri stored hget
            unfold requestedUri at huri
            split_ifs at huri ⊢ with hstorage
            · obtain ⟨signed, hopen, huri⟩ := bind_ok_iff.mp huri
              have huri := pure_ok_iff.mp huri
              refine ⟨rfl, signed, hopen, ?_⟩
              split_ifs at huri with hpermits
              · exact ⟨hpermits, hhash.trans huri.symm⟩
              · exact absurd huri.symm hempty
            · exact ⟨rfl, hhash.trans (pure_ok_iff.mp huri).symm⟩
          · cases hserve
  | storageFileDetails uri =>
      simp only [answer, fileDetails] at h
      split at h <;> cases h

theorem answer_told {node : StorageNode} {now : ℤ} {request : StorageRequest} {token : String}
    {reply : StorageReply} (h : node.answer now request = (reply, some token)) :
    ∃ file, reply = .storageFile file := by
  cases request with
  | storageFileRequest uri storageOrderToken =>
      simp only [answer] at h
      cases hserve : node.serveFile now uri storageOrderToken with
      | error thrown =>
          rw [hserve] at h
          cases h
      | ok answered =>
          rw [hserve] at h
          obtain rfl : answered = (reply, some token) := h
          obtain ⟨fileUri, _, hserve⟩ := bind_ok_iff.mp hserve
          split at hserve
          · rename_i file _
            exact ⟨file, (congrArg Prod.fst (pure_ok_iff.mp hserve)).symm⟩
          · cases hserve
  | storageFileDetails uri => cases h

end StorageNode
end Publiq
